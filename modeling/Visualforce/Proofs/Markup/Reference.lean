import Visualforce.Markup.Normal
import Visualforce.Proofs.Pattern.Scan
import Visualforce.Proofs.Text.WordBlank
import Visualforce.Xml.Reference

/-! # Characters written as references

A text is written with some characters as they are and others as references: the five entities that
every document knows, and numbers. Such a writing has no bare ampersand, and normal markup keeps its
references as they stand.
-/
namespace Visualforce.Markup
open Pattern Cursor

/-- The references that stand for a character in every document. -/
inductive IsReference : Char → Text → Prop where
  | entity (name : Text) {c : Char} (h : (name, [c]) ∈ Xml.predefined) :
      IsReference c ('&' :: (name ++ [';']))
  | number (digits : Text) {c : Char} (hne : digits ≠ []) (hdigits : ∀ d ∈ digits, d.isDigit)
      (h : Xml.legalCode? (Xml.readNumber 10 digits) = some c) :
      IsReference c ('&' :: '#' :: (digits ++ [';']))

/-- The first text is a writing of the second one; a character that stands for itself is
accepted. -/
inductive Spells (accepts : Char → Bool) : Text → Text → Prop where
  | nil : Spells accepts [] []
  | char {c : Char} {source text : Text} (hc : accepts c) (hrest : Spells accepts source text) :
      Spells accepts (c :: source) (c :: text)
  | reference {c : Char} {ref source text : Text} (href : IsReference c ref)
      (hrest : Spells accepts source text) : Spells accepts (ref ++ source) (c :: text)

/-- A text that is a writing of some text. -/
def IsLegible (accepts : Char → Bool) (source : Text) : Prop := ∃ text, Spells accepts source text

/-- The characters that are always written as references. -/
def references : List (Char × Text) :=
  [('&', "&amp;"), ('<', "&lt;"), ('>', "&gt;"), ('"', "&quot;"), ('\'', "&apos;"), ('\r', "&#13;"),
   ('\n', "&#10;"), ('\t', "&#9;")].map fun entry => (entry.1, entry.2.toList)

def escapeChar (c : Char) : Text := (references.lookup c).getD [c]

def escape (text : Text) : Text := text.flatMap escapeChar

/-- A character that references are made of. -/
def isReferenceChar (c : Char) : Bool := c.isAlphanum || "&#;".toList.contains c

theorem forall_mem_predefined {name value : Text} (h : (name, value) ∈ Xml.predefined) :
    strictEntities.contains name ∧ ∃ c more, name = c :: more ∧ c.isAlpha ∧
      ∀ d ∈ more, d.isAlphanum := by
  have hall : ∀ entry ∈ Xml.predefined, strictEntities.contains entry.1 ∧
      entry.1.head?.any Char.isAlpha ∧ entry.1.tail.all Char.isAlphanum := by decide
  obtain ⟨hstrict, hfirst, hmore⟩ := hall _ h
  refine ⟨hstrict, ?_⟩
  cases name with
  | nil => cases hfirst
  | cons c more => exact ⟨c, more, rfl, hfirst, List.all_eq_true.mp hmore⟩

theorem isReference_of_mem_references {entry : Char × Text} (h : entry ∈ references) :
    IsReference entry.1 entry.2 := by
  simp only [references, List.map_cons, List.map_nil, List.mem_cons, List.not_mem_nil, or_false]
    at h
  rcases h with rfl | rfl | rfl | rfl | rfl | rfl | rfl | rfl
  · exact .entity "amp".toList (by decide)
  · exact .entity "lt".toList (by decide)
  · exact .entity "gt".toList (by decide)
  · exact .entity "quot".toList (by decide)
  · exact .entity "apos".toList (by decide)
  · exact .number "13".toList (by decide) (by decide) (by decide)
  · exact .number "10".toList (by decide) (by decide) (by decide)
  · exact .number "9".toList (by decide) (by decide) (by decide)

theorem spells_escape {accepts : Char → Bool} {text : Text}
    (h : ∀ c ∈ text, accepts c ∨ (references.lookup c).isSome) :
    Spells accepts (escape text) text := by
  induction text with
  | nil => exact .nil
  | cons c text ih =>
    obtain ⟨hc, htext⟩ := List.forall_mem_cons.mp h
    rw [escape, List.flatMap_cons]
    cases hlookup : references.lookup c with
    | some ref =>
      obtain ⟨first, others, hentries, -⟩ := List.lookup_eq_some_iff.mp hlookup
      have hmem : (c, ref) ∈ references := by simp [hentries]
      rw [escapeChar, hlookup]
      exact .reference (isReference_of_mem_references hmem) (ih htext)
    | none =>
      rw [escapeChar, hlookup]
      exact .char (hc.resolve_right (by simp [hlookup])) (ih htext)

theorem IsReference.forall_mem {c : Char} {ref : Text} (h : IsReference c ref) :
    ∀ d ∈ ref, isReferenceChar d := by
  have hword : ∀ d : Char, d.isAlphanum → isReferenceChar d :=
    fun d hd => by simp [isReferenceChar, hd]
  cases h with
  | entity name h =>
    obtain ⟨-, c, more, rfl, hc, hmore⟩ := forall_mem_predefined h
    rw [List.forall_mem_cons, List.forall_mem_append, List.forall_mem_cons]
    exact ⟨by decide, ⟨hword c (by simp [Char.isAlphanum, hc]), fun d hd => hword d (hmore d hd)⟩,
      by decide⟩
  | number digits _ hdigits _ =>
    rw [List.forall_mem_cons, List.forall_mem_cons, List.forall_mem_append]
    exact ⟨by decide, by decide, fun d hd => hword d (by simp [Char.isAlphanum, hdigits d hd]), by
      decide⟩

namespace Spells

variable {accepts : Char → Bool} {source text : Text}

theorem of_all (h : ∀ c ∈ text, accepts c) : Spells accepts text text := by
  induction text with
  | nil => exact .nil
  | cons c text ih =>
    obtain ⟨hc, htext⟩ := List.forall_mem_cons.mp h
    exact .char hc (ih htext)

theorem mono {other : Char → Bool} (h : Spells accepts source text)
    (hmono : ∀ c, accepts c → other c) :
    Spells other source text := by
  induction h with
  | nil => exact .nil
  | char hc _ ih => exact .char (hmono _ hc) ih
  | reference href _ ih => exact .reference href ih

/-- A writing is at least as long as what it stands for. -/
theorem length_le (h : Spells accepts source text) : text.length ≤ source.length := by
  induction h with
  | nil => exact Nat.le_refl _
  | char _ _ ih => exact Nat.succ_le_succ ih
  | reference href _ ih =>
    cases href <;>
    · simp only [List.length_append, List.length_cons]
      omega

theorem forall_mem {property : Char → Prop} (h : Spells accepts source text)
    (hchar : ∀ c, accepts c → property c) (href : ∀ c, isReferenceChar c → property c) :
    ∀ c ∈ source, property c := by
  induction h with
  | nil => simp
  | char hc _ ih => exact List.forall_mem_cons.mpr ⟨hchar _ hc, ih⟩
  | reference hreference _ ih =>
    exact List.forall_mem_append.mpr ⟨fun d hd => href d (hreference.forall_mem d hd), ih⟩

end Spells

theorem IsLegible.not_mem {accepts : Char → Bool} {source : Text} {mark : Char}
    (h : IsLegible accepts source) (hchar : accepts mark = false)
    (href : isReferenceChar mark = false) : mark ∉ source := by
  obtain ⟨text, h⟩ := h
  have hne : ∀ c ∈ source, c ≠ mark := by
    refine h.forall_mem (fun c hc => ?_) fun c hc => ?_
    · rintro rfl
      rw [hc] at hchar
      cases hchar
    · rintro rfl
      rw [hc] at href
      cases href
  exact fun hmem => hne mark hmem rfl

/-- Normal markup keeps all references of a text and has no others. -/
structure KeepsReferences (text : Text) : Prop where
  named : Yields namedReference (written numberedReference) anything text text
  loose : Yields looseAmpersand (written fun _ => "&amp;".toList) anything text text

theorem begins_namedReference : Begins namedReference (· == '&') :=
  ((Begins.one _).append _).append _

theorem begins_looseAmpersand : Begins looseAmpersand (· == '&') := (Begins.one _).append _

theorem quiet_of_no_ampersand {text : Text} (h : '&' ∉ text) (before : Option Char) (rest : Text) :
    Quiet namedReference before text rest ∧ Quiet looseAmpersand before text rest := by
  have hchars : ∀ c ∈ text, (c == '&') = false :=
    fun c hc => beq_false_of_ne fun heq => h (heq ▸ hc)
  exact ⟨begins_namedReference.quiet hchars before rest,
    begins_looseAmpersand.quiet hchars before rest⟩

namespace KeepsReferences

variable {first second text : Text}

theorem append (hfirst : KeepsReferences first) (hsecond : KeepsReferences second) :
    KeepsReferences (first ++ second) :=
  ⟨hfirst.named.append hsecond.named, hfirst.loose.append hsecond.loose⟩

theorem flatMap {β : Type} {write : β → Text} {parts : List β}
    (h : ∀ part ∈ parts, KeepsReferences (write part)) : KeepsReferences (parts.flatMap write) :=
  ⟨.flatMap fun part hpart => (h part hpart).named, .flatMap fun part hpart => (h part hpart).loose⟩

theorem of_not_mem (h : '&' ∉ text) : KeepsReferences text :=
  ⟨.written_of_quiet (fun _ _ => trivial) fun before rest _ =>
    (quiet_of_no_ampersand h before rest).1, .written_of_quiet (fun _ _ => trivial) fun before rest
      _ => (quiet_of_no_ampersand h before rest).2⟩

end KeepsReferences

/-- An entity name and its semicolon are matched, whatever follows them. -/
theorem run_entityName {κ : Type} {name : Text} (h : ∃ c more, name = c :: more ∧ c.isAlpha ∧
      ∀ d ∈ more, d.isAlphanum) {before : Option Char} {rest : Text} {groups : List (κ × Span)}
    {goOn : Place κ → Option (Place κ)} {last : Place κ}
    (hgo : goOn ⟨between (behind before name) (';' :: rest), groups⟩ = some last) :
    entityName.run ⟨between before (name ++ ';' :: rest), groups⟩ goOn = some last := by
  obtain ⟨c, more, rfl, hc, hmore⟩ := h
  simp only [entityName, run_append, List.cons_append, run_one_cons, hc, if_true]
  refine run_starOne_of_some hmore ?_ hgo
  rintro d ⟨⟩
  decide

/-- An ampersand that begins a reference is none that has to be escaped. -/
theorem matchAt_looseAmpersand {before : Option Char} {text : Text} {last : Place Unit}
    (h : afterAmpersand.run ⟨between (some '&') text, []⟩ some = some last) :
    looseAmpersand.matchAt (between before ('&' :: text)) = none := by
  have hahead : (afterAmpersand.matchAt (between (some '&') text)).isNone = false := by
    rw [matchAt, h]
    rfl
  have hrun : looseAmpersand.run ⟨between before ('&' :: text), []⟩ some = none := by
    rw [looseAmpersand, run_append, char, run_one_cons, if_pos (by decide), notAhead, run_guard,
      hahead]
    rfl
  rw [matchAt, hrun]
  rfl

theorem afterAmpersand_eq : afterAmpersand =
    alt (char '#' ++ plus (one Text.isDecimalDigit))
      (alt (literal "#x" ++ plus (one isHexadecimal)) entityName) ++ char ';' := rfl

theorem isDecimalDigit_of_isDigit {c : Char} (h : c.isDigit) : Text.isDecimalDigit c := by
  have hlt : c.toNat < 0x80 := Text.toNat_lt_of_isAlphanum (by simp [Char.isAlphanum, h])
  rw [Text.isDecimalDigit, if_pos hlt, h]

section Entity
variable {name value : Text} (h : (name, value) ∈ Xml.predefined) (before : Option Char)
    (rest : Text)
include h

/-- An entity of every document is a named reference and is written as it stands. -/
theorem matchAt_namedReference : ∃ hit,
    namedReference.matchAt (between before ('&' :: (name ++ ';' :: rest))) = some hit ∧
      hit.stop = between (some ';') rest ∧ numberedReference hit = '&' :: (name ++ [';']) := by
  obtain ⟨hstrict, hname⟩ := forall_mem_predefined h
  let start := between before ('&' :: (name ++ ';' :: rest))
  let span := (between (some '&') (name ++ ';' :: rest)).spanTo
    (between (behind (some '&') name) (';' :: rest))
  let hit : Hit Unit := ⟨start, between (some ';') rest, [((), span)]⟩
  have hrun : namedReference.run ⟨start, []⟩ some = some ⟨hit.stop, hit.groups⟩ := by
    rw [namedReference, run_append, run_append, char, run_one_cons, if_pos (by decide), run_group]
    exact run_entityName hname rfl
  have hgroup : hit.group () = name := spanTo_text _ _ name _
  have htext := spanTo_text before (some ';') ('&' :: (name ++ [';'])) rest
  rw [List.cons_append, List.append_assoc, List.singleton_append] at htext
  refine ⟨hit, by rw [matchAt, hrun]; rfl, rfl, ?_⟩
  rw [numberedReference, hgroup, if_pos hstrict]
  exact htext

theorem run_afterAmpersand_entity :
    afterAmpersand.run ⟨between (some '&') (name ++ ';' :: rest), []⟩ some =
      some ⟨between (some ';') rest, []⟩ := by
  obtain ⟨-, hname⟩ := forall_mem_predefined h
  have hnumber : ∀ goOn : Place Unit → Option (Place Unit),
      (char '#').run ⟨between (some '&') (name ++ ';' :: rest), []⟩ goOn = none := by
    obtain ⟨c, more, rfl, hc, -⟩ := hname
    refine fun goOn => run_one_of_head? ?_
    rintro _ ⟨⟩
    refine beq_false_of_ne ?_
    rintro rfl
    exact absurd hc (by decide)
  have hhex : (literal "#x" : Pattern Unit) = char '#' ++ exactly ['x'] := rfl
  rw [afterAmpersand_eq, run_append, run_alt, run_alt, run_append, run_append, hhex, run_append,
    hnumber, hnumber]
  exact run_entityName hname rfl

end Entity

theorem run_afterAmpersand_number {digits : Text} (hne : digits ≠ [])
    (hdigits : ∀ d ∈ digits, d.isDigit)
    (rest : Text) : afterAmpersand.run ⟨between (some '&') ('#' :: (digits ++ ';' :: rest)), []⟩
    some =
      some ⟨between (some ';') rest, []⟩ := by
  rw [afterAmpersand_eq, run_append, run_alt, run_append, char, run_one_cons, if_pos (by decide),
    Option.or_eq_some_iff]
  refine .inl (run_plusOne_of_some hne (fun d hd => isDecimalDigit_of_isDigit (hdigits d hd))
    ?_ rfl)
  rintro d ⟨⟩
  decide

theorem IsReference.keepsReferences {c : Char} {ref : Text} (h : IsReference c ref) :
    KeepsReferences ref := by
  cases h with
  | entity name h =>
    have hmark : '&' ∉ name ++ [';'] := by
      have hnames : ∀ entry ∈ Xml.predefined, '&' ∉ entry.1 ++ [';'] := by decide
      exact hnames _ h
    refine ⟨.of_match (fun _ _ => trivial) (by simp) fun before rest _ => ?_,
      .written_of_quiet (fun _ _ => trivial) fun before rest _ =>
      ⟨?_, (quiet_of_no_ampersand hmark _ _).2⟩⟩
    · obtain ⟨hit, hmatch, hstop, hwritten⟩ := matchAt_namedReference h before rest
      refine ⟨hit, some ';', ?_, hstop, hwritten⟩
      rwa [List.cons_append, List.append_assoc, List.singleton_append]
    · rw [List.append_assoc, List.singleton_append]
      exact matchAt_looseAmpersand (run_afterAmpersand_entity h rest)
  | number digits hne hdigits h =>
    have hmark : '&' ∉ '#' :: (digits ++ [';']) := by
      rw [List.mem_cons, List.mem_append, not_or, not_or]
      exact ⟨by decide, fun hmem => absurd (hdigits _ hmem) (by decide), by decide⟩
    refine ⟨.written_of_quiet (fun _ _ => trivial) fun before rest _ =>
      ⟨?_, (quiet_of_no_ampersand hmark _ _).1⟩, .written_of_quiet (fun _ _ => trivial)
        fun before rest _ => ⟨?_, (quiet_of_no_ampersand hmark _ _).2⟩⟩
    · simp [matchAt, namedReference, entityName, char]
    · rw [List.cons_append, List.append_assoc, List.singleton_append]
      exact matchAt_looseAmpersand (run_afterAmpersand_number hne hdigits rest)

theorem Spells.keepsReferences {accepts : Char → Bool} {source text : Text}
    (h : Spells accepts source text) (hmark : accepts '&' = false) : KeepsReferences source := by
  induction h with
  | nil => exact .of_not_mem (by simp)
  | @char c _ _ hc _ ih =>
    have hsingle : KeepsReferences [c] := by
      refine .of_not_mem ?_
      rw [List.mem_singleton]
      rintro rfl
      rw [hc] at hmark
      cases hmark
    exact hsingle.append ih
  | reference href _ ih => exact href.keepsReferences.append ih

end Visualforce.Markup
