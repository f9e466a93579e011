import Visualforce.Proofs.Markup.ClearToken
import Visualforce.Proofs.Outcome
import Visualforce.Xml.Document

/-! # Reading written tags

A start tag that was written out is read back: its name, its attributes in the order written, and
whether it closes itself. Whatever follows the tag is left as it is.
-/
namespace Visualforce.Xml
open Markup

variable {opening rest : Text}

/-- What ends a name: no name character, and nothing that splits the name. -/
def StopsName (rest : Text) : Prop := ∀ c ∈ rest.head?, isNameChar c = false ∧ c ≠ ':'

theorem takeWhile_append_of_head? {accepts : Char → Bool} {text rest : Text}
    (htext : ∀ c ∈ text, accepts c) (hrest : ∀ c ∈ rest.head?, accepts c = false) :
    (text ++ rest).takeWhile accepts = text ∧ (text ++ rest).dropWhile accepts = rest := by
  rw [List.takeWhile_append_of_pos htext, List.dropWhile_append_of_pos htext]
  cases rest with
  | nil => simp
  | cons c rest => simp [hrest c rfl]

theorem simpleName_append {name : Text} (h : isPart name)
    (hrest : ∀ c ∈ rest.head?, isNameChar c = false) :
    simpleName opening (name ++ rest) = .ok (name, rest) := by
  obtain ⟨c, more, rfl, hc, hmore⟩ := exists_cons_of_isPart h
  obtain ⟨htake, hdrop⟩ := takeWhile_append_of_head?
    (fun d hd => isNameChar_of_isPartChar (hmore d hd)) hrest
  rw [List.cons_append, simpleName, if_pos (isNameStart_of_isTagNameStart hc), htake, hdrop]

/-- A name that was written is read back, whatever follows it. -/
theorem writtenName_append {name : Text} (h : IsSpelling name) (hrest : StopsName rest) :
    writtenName opening (name ++ rest) = .ok (spelled name, rest) := by
  have hstop : ∀ c ∈ rest.head?, isNameChar c = false := by
    intro c hc
    exact (hrest c hc).1
  cases h with
  | simple hbase =>
    rw [writtenName, simpleName_append hbase hstop, ok_bind, spelled_simple hbase]
    dsimp only
    split
    · exact absurd rfl (hrest ':' rfl).2
    · rfl
  | @qualified qualifier base hqualifier hbase =>
    rw [writtenName, List.append_assoc, simpleName_append hqualifier, ok_bind, List.cons_append,
      spelled_qualified hqualifier]
    · simp only [simpleName_append hbase hstop, ok_bind]
      rfl
    · rintro c ⟨⟩
      decide

/-- A reference that stands for a character in every document. -/
inductive Refers : Reference → Char → Prop where
  | number (c : Char) : Refers (.number (some c)) c
  | entity (name : Text) {c : Char} (h : (name, [c]) ∈ predefined) : Refers (.entity name) c

theorem Entities.lookup?_predefined (entities : Entities) {name : Text} {c : Char}
    (h : (name, [c]) ∈ predefined) : entities.lookup? name = some [c] := by
  have hall : ∀ entry ∈ predefined, predefined.lookup entry.1 = some entry.2 := by decide
  rw [Entities.lookup?, hall _ h]
  rfl

/-- A reference that was written is read, whatever follows it. -/
theorem reference_append {c : Char} {ref : Text} (h : IsReference c ref) :
    ∃ more read, ref = '&' :: more ∧ Refers read c ∧
      ∀ opening rest, reference opening (more ++ rest) = .ok (read, rest) := by
  cases h with
  | entity name h =>
    refine ⟨name ++ [';'], .entity name, rfl, .entity name h, fun opening rest => ?_⟩
    have hpart : isPart name := by
      have hall : ∀ entry ∈ predefined, isPart entry.1 := by decide
      exact hall _ h
    have hstart : ∀ c ∈ (';' :: rest).head?, isNameChar c = false := by
      rintro c ⟨⟩
      decide
    have hname : simpleName opening (name ++ ';' :: rest) = .ok (name, ';' :: rest) :=
      simpleName_append hpart hstart
    obtain ⟨d, others, rfl, hd, -⟩ := exists_cons_of_isPart hpart
    have hne : d ≠ '#' := by
      rintro rfl
      exact absurd hd (by decide)
    rw [List.append_assoc, List.singleton_append]
    simp only [List.cons_append] at hname ⊢
    rw [reference]
    · rw [hname, ok_bind]
      rfl
    · rintro after heq
      exact hne (List.cons_eq_cons.mp heq).1
    · rintro after heq
      exact hne (List.cons_eq_cons.mp heq).1
  | number digits hne hdigits h =>
    refine ⟨'#' :: (digits ++ [';']), .number (some c), rfl, .number c, fun opening rest => ?_⟩
    have hstop : ∀ d ∈ (';' :: rest).head?, d.isDigit = false := by
      rintro d ⟨⟩
      decide
    obtain ⟨htake, hdrop⟩ := takeWhile_append_of_head? hdigits hstop
    obtain ⟨d, others, rfl⟩ := List.exists_cons_of_ne_nil hne
    have hx : d ≠ 'x' := by
      rintro rfl
      exact absurd (hdigits _ List.mem_cons_self) (by decide)
    rw [List.cons_append, List.append_assoc, List.singleton_append, reference]
    · rw [reference.numbered, htake, hdrop]
      simp only [h]
    · rintro after heq
      exact hx (List.cons_eq_cons.mp heq).1

/-- A character that stands for itself in a value between double quotes. -/
def isValueChar (c : Char) : Bool := isLegal c && 0x20 ≤ c.toNat && !"<&\"".toList.contains c

/-- A character that stands for itself in a value between quotes of the given kind. -/
def isValueCharIn (quote c : Char) : Bool :=
  isLegal c && 0x20 ≤ c.toNat && !(['<', '&', quote].contains c)

theorem isValueCharIn_of_isValueChar {c : Char} (h : isValueChar c) : isValueCharIn '"' c := h

inductive Stands : Char → ValuePart → Prop where
  | char (c : Char) : Stands c (.char c)
  | reference {ref : Reference} {c : Char} (h : Refers ref c) (place : Text) :
      Stands c (.reference ref place)

/-- An attribute as it is read, apart from its place. -/
structure Reads (attr : Attribute) (written : WrittenAttribute) : Prop where
  name : written.name = spelled attr.name
  value : List.Forall₂ Stands attr.value written.value

/-- An attribute as it stands in a file, and the one that it is read as. -/
structure IsReadable (raw attr : Attribute) : Prop where
  name : raw.name = attr.name
  spelling : IsSpelling attr.name
  value : Spells isValueChar raw.value attr.value

/-- A text with a space before it and quotes of either kind, and the attribute that it is read
as. -/
structure IsWritten (source : Text) (attr : Attribute) : Prop where
  spelling : IsSpelling attr.name
  quoted : ∃ quote value, quote ∈ ['"', '\''] ∧ Spells (isValueCharIn quote) value attr.value ∧
    source = ' ' :: (attr.name ++ '=' :: quote :: (value ++ [quote]))

theorem IsReadable.isWritten {raw attr : Attribute} (h : IsReadable raw attr) :
    IsWritten raw.source attr where
  spelling := h.spelling
  quoted := ⟨'"', raw.value, by simp, h.value.mono fun _ => isValueCharIn_of_isValueChar, by
    rw [Attribute.source, h.name]⟩

theorem resolveValue_of_stands (entities : Entities) (opening : Text) {value : Text}
    {parts : List ValuePart} (h : List.Forall₂ Stands value parts) :
    resolveValue entities opening parts = .ok value := by
  refine bind_eq_ok.mpr ⟨value.map fun c => [c], mapM_eq_ok_of_forall₂ ?_ h, ?_⟩
  · rintro c part (_ | ⟨href, place⟩)
    · rfl
    · cases href with
      | number => rfl
      | entity name h =>
        have hspace : ∀ entry ∈ predefined, ∀ c ∈ entry.2, isSpace c = false := by decide
        simp [entities.lookup?_predefined h, hspace _ h]
  · simp [← List.flatMap_def]

theorem eq_space_of_isSpace {c : Char} (h : isSpace c) (hc : 0x20 ≤ c.toNat) : c = ' ' := by
  simp only [isSpace, Bool.or_eq_true, beq_iff_eq] at h
  rcases h with ((rfl | rfl) | rfl) | rfl
  · rfl
  · exact absurd hc (by decide)
  · exact absurd hc (by decide)
  · exact absurd hc (by decide)

theorem attributeValue_append (opening : Text) {quote : Char} (hquote : quote ∈ ['"', '\''])
    {source value : Text}
    (h : Spells (isValueCharIn quote) source value) (rest : Text) {fuel : Nat}
    (hfuel : source.length < fuel)
    (parts : List ValuePart) : ∃ read, List.Forall₂ Stands value read ∧
      attributeValue opening quote fuel parts (source ++ quote :: rest) =
        .ok (parts.reverse ++ read, rest) := by
  induction h generalizing fuel parts with
  | nil =>
    obtain ⟨fuel, rfl⟩ := Nat.exists_eq_add_one_of_ne_zero (Nat.ne_of_gt hfuel)
    exact ⟨[], .nil, by simp [attributeValue]⟩
  | @char c source value hc _ ih =>
    obtain ⟨fuel, rfl⟩ := Nat.exists_eq_add_one_of_ne_zero (Nat.ne_of_gt (Nat.zero_lt_of_lt hfuel))
    obtain ⟨read, hread, hvalue⟩ := ih (Nat.lt_of_succ_lt_succ hfuel) (.char c :: parts)
    refine ⟨.char c :: read, .cons (.char c) hread, ?_⟩
    simp only [isValueCharIn, Bool.and_eq_true, decide_eq_true_eq, Bool.not_eq_true',
      List.contains_eq_mem, decide_eq_false_iff_not] at hc
    obtain ⟨⟨hlegal, hlow⟩, hmarks⟩ := hc
    simp at hmarks
    have hreturn : c ≠ '\r' := by
      rintro rfl
      exact absurd hlow (by decide)
    have hspace : (if isSpace c then ' ' else c) = c := by
      split_ifs with h
      · exact (eq_space_of_isSpace h hlow).symm
      · rfl
    rw [List.cons_append, attributeValue.eq_def]
    simp only [hmarks, hlegal, hreturn, hspace, beq_iff_eq, Bool.not_true, Bool.or_false, if_false]
    rw [hvalue]
    simp
  | @reference c ref source value href _ ih =>
    obtain ⟨fuel, rfl⟩ := Nat.exists_eq_add_one_of_ne_zero (Nat.ne_of_gt (Nat.zero_lt_of_lt hfuel))
    obtain ⟨more, found, rfl, hrefers, hreference⟩ := reference_append href
    have hshorter : source.length < fuel := by
      simp only [List.length_append, List.length_cons] at hfuel
      omega
    let place := '&' :: (more ++ (source ++ quote :: rest))
    obtain ⟨read, hread, hvalue⟩ := ih hshorter (.reference found place :: parts)
    refine ⟨.reference found place :: read, .cons (.reference hrefers place) hread, ?_⟩
    have hmark : ('&' == quote) = false :=
      (by decide : ∀ quote ∈ ['"', '\''], ('&' == quote) = false) quote hquote
    rw [List.cons_append, List.cons_append, List.append_assoc, attributeValue.eq_def]
    simp only [hreference, ok_bind, hmark]
    refine Eq.trans ?_ (hvalue.trans (by simp))
    rfl

theorem skipSpace_of_ne {c : Char} (h : isSpace c = false) (rest : Text) :
    skipSpace (c :: rest) = c :: rest := List.dropWhile_cons_of_neg (by simp [h])

theorem writtenAttribute_append (opening : Text) {attr : Attribute} (hname : IsSpelling attr.name)
    {quote : Char}
    (hquote : quote ∈ ['"', '\'']) {value : Text}
    (hvalue : Spells (isValueCharIn quote) value attr.value) (rest : Text) :
    ∃ written, Reads attr written ∧
      writtenAttribute opening (attr.name ++ '=' :: quote :: (value ++ quote :: rest)) =
        .ok (written, rest) := by
  have hfuel : value.length < (value ++ quote :: rest).length + 1 := by
    simp only [List.length_append, List.length_cons]
    omega
  obtain ⟨read, hread, hvalue⟩ := attributeValue_append opening hquote hvalue rest hfuel []
  let place := attr.name ++ '=' :: quote :: (value ++ quote :: rest)
  refine ⟨⟨spelled attr.name, read, place⟩, ⟨rfl, hread⟩, ?_⟩
  have hspace : isSpace quote = false :=
    (by decide : ∀ quote ∈ ['"', '\''], isSpace quote = false) quote hquote
  have hkind : (quote == '"' || quote == '\'') = true := by simpa using hquote
  rw [writtenAttribute, writtenName_append hname (by rintro c ⟨⟩; decide), ok_bind]
  simp only [skipSpace_of_ne (show isSpace '=' = false by decide), skipSpace_of_ne hspace]
  rw [if_pos hkind, hvalue]
  rfl

theorem isSpace_tagEnd (closes : Bool) (rest : Text) :
    ∀ c ∈ (tagEnd closes ++ rest).head?, isSpace c = false := by
  cases closes <;> rintro c ⟨⟩ <;> decide

theorem tagRest_end (name : WrittenName) {gap : Text} (hgap : ∀ c ∈ gap, isSpace c) (closes : Bool)
    (rest : Text)
    (fuel : Nat) (done : List WrittenAttribute) :
    tagRest opening name (fuel + 1) done (gap ++ (tagEnd closes ++ rest)) =
      .ok (⟨name, done.reverse, closes⟩, rest) := by
  have hskip : skipSpace (gap ++ (tagEnd closes ++ rest)) = tagEnd closes ++ rest := by
    rw [skipSpace, (takeWhile_append_of_head? hgap (isSpace_tagEnd closes rest)).2]
  rw [tagRest, hskip]
  cases closes <;> rfl

theorem tagRest_attribute (opening : Text) {source : Text} {attr : Attribute}
    (h : IsWritten source attr)
    (name : WrittenName) (rest : Text)
    (fuel : Nat) (done : List WrittenAttribute) : ∃ written, Reads attr written ∧
      tagRest opening name (fuel + 1) done (source ++ rest) =
        tagRest opening name fuel (written :: done) rest := by
  obtain ⟨quote, value, hquote, hvalue, rfl⟩ := h.quoted
  obtain ⟨written, hreads, hwritten⟩ :=
    writtenAttribute_append opening h.spelling hquote hvalue rest
  obtain ⟨c, more, hname, hc, -⟩ := h.spelling.exists_cons
  refine ⟨written, hreads, ?_⟩
  have hsource : ' ' :: (attr.name ++ '=' :: quote :: (value ++ [quote])) ++ rest =
      ' ' :: (attr.name ++ '=' :: quote :: (value ++ quote :: rest)) := by
    simp
  rw [hsource, hname]
  rw [hname] at hwritten
  have hspace : isSpace c = false := by
    rw [← Bool.not_eq_true]
    exact fun hspace => by
      simp only [isSpace, Bool.or_eq_true, beq_iff_eq] at hspace
      rcases hspace with ((rfl | rfl) | rfl) | rfl <;> exact absurd hc (by decide)
  have hskip : skipSpace (' ' :: (c :: more ++ '=' :: quote :: (value ++ quote :: rest))) =
      c :: (more ++ '=' :: quote :: (value ++ quote :: rest)) :=
    (List.dropWhile_cons_of_pos (by decide)).trans (skipSpace_of_ne hspace _)
  rw [tagRest, hskip]
  split
  · rename_i heq
    cases heq
  · rename_i heq
    obtain ⟨rfl, -⟩ := List.cons_eq_cons.mp heq
    exact absurd hc (by decide)
  · rename_i heq
    obtain ⟨rfl, -⟩ := List.cons_eq_cons.mp heq
    exact absurd hc (by decide)
  · rename_i heq
    obtain ⟨rfl, -⟩ := List.cons_eq_cons.mp heq
    exact absurd hc (by decide)
  · rename_i heq
    obtain ⟨rfl, rfl⟩ := List.cons_eq_cons.mp heq
    rw [if_pos (by simp [isNameStart_of_isTagNameStart hc]; decide), ← List.cons_append, hwritten,
      ok_bind]

theorem tagRest_append (opening : Text) {sources : List Text} {attributes : List Attribute}
    (h : List.Forall₂ IsWritten sources attributes) (name : WrittenName) {gap : Text}
    (hgap : ∀ c ∈ gap, isSpace c)
    (closes : Bool) (rest : Text) {fuel : Nat} (hfuel : sources.length < fuel)
    (done : List WrittenAttribute) :
    ∃ written, List.Forall₂ Reads attributes written ∧
      tagRest opening name fuel done (sources.flatten ++ (gap ++ (tagEnd closes ++ rest))) =
        .ok (⟨name, done.reverse ++ written, closes⟩, rest) := by
  induction h generalizing fuel done with
  | nil =>
    obtain ⟨fuel, rfl⟩ := Nat.exists_eq_add_one_of_ne_zero (Nat.ne_of_gt hfuel)
    exact ⟨[], .nil, by simpa using tagRest_end name hgap closes rest fuel done⟩
  | @cons source attr sources attributes hattr _ ih =>
    obtain ⟨fuel, rfl⟩ := Nat.exists_eq_add_one_of_ne_zero (Nat.ne_of_gt (Nat.zero_lt_of_lt hfuel))
    obtain ⟨first, hfirst, hone⟩ := tagRest_attribute opening hattr name
      (sources.flatten ++ (gap ++ (tagEnd closes ++ rest))) fuel done
    obtain ⟨written, hwritten, hall⟩ := ih (Nat.lt_of_succ_lt_succ hfuel) (first :: done)
    refine ⟨first :: written, .cons hfirst hwritten, ?_⟩
    rw [List.flatten_cons, List.append_assoc, hone, hall]
    simp

/-- What is written begins with a space, so there are at most as many attributes as characters. -/
theorem length_le_flatten {sources : List Text} {attributes : List Attribute}
    (h : List.Forall₂ IsWritten sources attributes) : sources.length ≤ sources.flatten.length := by
  induction h with
  | nil => rfl
  | cons hattr _ ih =>
    obtain ⟨quote, value, -, -, rfl⟩ := hattr.quoted
    simp only [List.flatten_cons, List.length_append, List.length_cons]
    omega

theorem startTag_written (opening : Text) {tag : Text} (htag : IsSpelling tag) {sources : List Text}
    {attributes : List Attribute} (h : List.Forall₂ IsWritten sources attributes) {gap : Text}
    (hgap : ∀ c ∈ gap, isSpace c) (closes : Bool) (rest : Text) :
    ∃ written, List.Forall₂ Reads attributes written ∧
      startTag opening (tag ++ (sources.flatten ++ (gap ++ (tagEnd closes ++ rest)))) =
        .ok (⟨spelled tag, written, closes⟩, rest) := by
  have hspace : ∀ c, isSpace c → isNameChar c = false ∧ c ≠ ':' := by
    intro c hc
    simp only [isSpace, Bool.or_eq_true, beq_iff_eq] at hc
    rcases hc with ((rfl | rfl) | rfl) | rfl <;> decide
  have hstop : StopsName (sources.flatten ++ (gap ++ (tagEnd closes ++ rest))) := by
    cases h with
    | cons hattr _ =>
      obtain ⟨quote, value, -, -, rfl⟩ := hattr.quoted
      rintro c ⟨⟩
      decide
    | nil =>
      cases gap with
      | cons c gap =>
        rintro d ⟨⟩
        exact hspace c (hgap c List.mem_cons_self)
      | nil => cases closes <;> rintro c ⟨⟩ <;> decide
  have hfuel : sources.length < (sources.flatten ++ (gap ++ (tagEnd closes ++ rest))).length +
    1 := by
    have hle := length_le_flatten h
    simp only [List.length_append]
    omega
  obtain ⟨written, hwritten, hrest⟩ :=
    tagRest_append opening h (spelled tag) hgap closes rest hfuel []
  exact ⟨written, hwritten, by rw [startTag, writtenName_append htag hstop, ok_bind]; exact hrest⟩

theorem startTag_append (opening : Text) {raw : Head} (htag : IsSpelling raw.tag)
    {attributes : List Attribute} (hattributes : List.Forall₂ IsReadable raw.attributes attributes)
    (closes : Bool) (rest : Text) :
    ∃ written, List.Forall₂ Reads attributes written ∧
      startTag opening (raw.tag ++ (raw.attributeSource ++ (tagEnd closes ++ rest))) =
        .ok (⟨spelled raw.tag, written, closes⟩, rest) := by
  have hsources : List.Forall₂ IsWritten (raw.attributes.map Attribute.source) attributes :=
    List.forall₂_map_left_iff.mpr (hattributes.imp fun _ _ => IsReadable.isWritten)
  rw [Head.attributeSource, List.flatMap_def]
  exact startTag_written opening htag hsources (List.forall_mem_nil _) closes rest

end Visualforce.Xml
