import Visualforce.Page.Dependencies
import Visualforce.Proofs.Pattern.Scan
import Visualforce.Proofs.Text.Trim

/-! # Chains of identifiers

The chain that a text begins with is its longest run of identifiers with single dots in between. The
pattern of dotted paths takes exactly this chain apart, and a simple reference, in which no dotted
access occurs, has none.
-/
namespace Visualforce

namespace Expression
open Pattern Cursor

variable {κ : Type} {goOn : Place κ → Option (Place κ)} {last : Place κ} {groups : List (κ × Span)}
variable {before : Option Char} {text rest name : Text} {path : List Text}

def IsIdentifier (name : Text) : Prop :=
  ∃ c rest, name = c :: rest ∧ isIdentifierStart c ∧ ∀ d ∈ rest, isIdentifierChar d

/-- The names with a dot before each. -/
def dotted (path : List Text) : Text := path.flatMap ('.' :: ·)

/-- A text that neither goes on with the last name of a chain nor begins another one. -/
structure EndsChain (rest : Text) : Prop where
  char : ∀ c ∈ rest.head?, isIdentifierChar c = false
  name : ∀ c more, rest = '.' :: c :: more → isIdentifierStart c = false

/-- A text begins with a name and a path of further names, and with no longer chain. -/
structure BeginsWithChain (text entity : Text) (path : List Text) : Prop where
  isIdentifier : IsIdentifier entity
  path_ne : path ≠ []
  path_identifiers : ∀ name ∈ path, IsIdentifier name
  split : ∃ rest, text = entity ++ (dotted path ++ rest) ∧ EndsChain rest

theorem dot_not_isIdentifierChar : isIdentifierChar '.' = false := by decide

theorem dotted_cons (name : Text) (path : List Text) :
    dotted (name :: path) = '.' :: (name ++ dotted path) :=
  rfl

theorem head?_dotted_append (path : List Text)
    (hrest : ∀ c ∈ rest.head?, isIdentifierChar c = false) :
    ∀ c ∈ (dotted path ++ rest).head?, isIdentifierChar c = false := by
  cases path with
  | nil => exact hrest
  | cons name path =>
    rintro c ⟨⟩
    exact dot_not_isIdentifierChar

theorem run_identifier_of_some (hname : IsIdentifier name)
    (hrest : ∀ c ∈ rest.head?, isIdentifierChar c = false)
    (hgo : goOn ⟨between (behind before name) rest, groups⟩ = some last) :
    identifier.run ⟨between before (name ++ rest), groups⟩ goOn = some last := by
  obtain ⟨c, name, rfl, hc, hname⟩ := hname
  rw [identifier, run_append, List.cons_append, run_one_cons, if_pos hc]
  exact run_starOne_of_some hname hrest hgo

theorem run_segment_of_some (hname : IsIdentifier name)
    (hrest : ∀ c ∈ rest.head?, isIdentifierChar c = false)
    (hgo : goOn ⟨between (behind before ('.' :: name)) rest, groups⟩ = some last) :
    (char '.' ++ identifier).run ⟨between before ('.' :: (name ++ rest)), groups⟩ goOn =
      some last := by
  rw [run_append, char, run_one_cons, if_pos (beq_self_eq_true '.')]
  exact run_identifier_of_some hname hrest hgo

theorem begins_identifier : Begins (identifier : Pattern κ) isIdentifierStart :=
  (Begins.one _).append _

theorem run_segment_none (hrest : ∀ c more, rest = '.' :: c :: more → isIdentifierStart c = false) :
    (char '.' ++ identifier).run ⟨between before rest, groups⟩ goOn = none := by
  cases rest with
  | nil => rfl
  | cons c rest =>
    rw [run_append, char, run_one_cons]
    split_ifs with hdot
    · refine begins_identifier _ _ _ _ fun d hd => ?_
      obtain ⟨more, rfl⟩ := List.head?_eq_some_iff.mp hd
      exact hrest d more (by rw [beq_iff_eq.mp hdot])
    · rfl

/-- A repetition of dots with names goes to the end of the chain. -/
theorem run_segments_of_some (hpath : ∀ name ∈ path, IsIdentifier name) (hrest : EndsChain rest)
    (hgo : goOn ⟨between (behind before (dotted path)) rest, groups⟩ = some last) :
    (Pattern.star (char '.' ++ identifier)).run ⟨between before (dotted path ++ rest), groups⟩
      goOn =
      some last := by
  induction path generalizing before with
  | nil => rwa [dotted, List.flatMap_nil, List.nil_append,
      run_star_stop (run_segment_none hrest.name)]
  | cons name path ih =>
    obtain ⟨hname, hpath⟩ := List.forall_mem_cons.mp hpath
    rw [dotted_cons, List.cons_append, List.append_assoc]
    have hitem : (char '.' ++ identifier).run
      ⟨between before ('.' :: (name ++ (dotted path ++ rest))), groups⟩
        some = some ⟨between (behind before ('.' :: name)) (dotted path ++ rest), groups⟩ :=
      run_segment_of_some hname (head?_dotted_append path hrest.char) rfl
    refine run_star_step_of_some hitem ?_ (ih hpath ?_)
    · simp only [between_left, List.length_cons, List.length_append]
      omega
    · rw [dotted_cons, behind_cons, behind_append] at hgo
      exact hgo

/-- So do a dot with a name and a repetition. -/
theorem run_dotted_of_some (hne : path ≠ []) (hpath : ∀ name ∈ path, IsIdentifier name)
    (hrest : EndsChain rest)
    (hgo : goOn ⟨between (behind before (dotted path)) rest, groups⟩ = some last) :
    (plus (char '.' ++ identifier)).run ⟨between before (dotted path ++ rest), groups⟩ goOn =
      some last := by
  obtain ⟨name, path, rfl⟩ := List.exists_cons_of_ne_nil hne
  obtain ⟨hname, hpath⟩ := List.forall_mem_cons.mp hpath
  rw [dotted_cons, behind_cons, behind_append] at hgo
  rw [plus, run_append, dotted_cons, List.cons_append, List.append_assoc]
  refine run_segment_of_some hname (head?_dotted_append path hrest.char) ?_
  exact run_segments_of_some hpath hrest hgo

theorem run_identifier_cons {c : Char} {more : Text} (hc : isIdentifierStart c)
    (hrefuse : ∀ before c rest, isIdentifierChar c → goOn ⟨between before (c :: rest), groups⟩ =
    none) :
    identifier.run ⟨between before (c :: more), groups⟩ goOn =
      goOn ⟨between (behind (some c) (more.takeWhile isIdentifierChar))
        (more.dropWhile isIdentifierChar), groups⟩ := by
  rw [identifier, run_append, run_one_cons, if_pos hc]
  exact run_starOne_takeWhile more hrefuse

/-- Behind a name stand the other names of its chain, as many as there are. -/
theorem exists_dotted (text : Text) (htext : ∀ c ∈ text.head?, isIdentifierChar c = false) :
    ∃ path rest, text = dotted path ++ rest ∧ (∀ name ∈ path, IsIdentifier name) ∧
      EndsChain rest := by
  induction hlength : text.length using Nat.strong_induction_on generalizing text with
  | _ n ih =>
    by_cases hnext : ∃ c more, text = '.' :: c :: more ∧ isIdentifierStart c = true
    · obtain ⟨c, more, rfl, hc⟩ := hnext
      have hhead : ∀ d ∈ (more.dropWhile isIdentifierChar).head?, isIdentifierChar d = false :=
        fun d =>
        Text.not_of_mem_head?_dropWhile
      have hshorter : (more.dropWhile isIdentifierChar).length < n := by
        have hle := (List.dropWhile_suffix isIdentifierChar (l := more)).length_le
        simp only [List.length_cons] at hlength
        omega
      obtain ⟨path, rest, hrest, hpath, hends⟩ := ih _ hshorter _ hhead rfl
      refine ⟨(c :: more.takeWhile isIdentifierChar) :: path, rest, ?_, ?_, hends⟩
      · rw [dotted_cons, List.cons_append, List.cons_append, List.cons_append, List.append_assoc,
          ← hrest, List.takeWhile_append_dropWhile]
      · exact List.forall_mem_cons.mpr
          ⟨⟨c, _, rfl, hc, fun d hd => List.mem_takeWhile_imp hd⟩, hpath⟩
    · refine ⟨[], text, rfl, by simp, htext, fun c more heq => ?_⟩
      rw [← Bool.not_eq_true]
      exact fun hc => hnext ⟨c, more, heq, hc⟩

/-- Two names with a dot in between are the beginning of a chain. -/
theorem exists_beginsWithChain {c : Char} (rest : Text) (hname : IsIdentifier name)
    (hc : isIdentifierStart c) (htext : text = name ++ '.' :: c :: rest) :
    ∃ path, BeginsWithChain text name path := by
  obtain ⟨path, rest', hrest, hpath, hends⟩ := exists_dotted ('.' :: c :: rest) (by
    rintro d ⟨⟩
    exact dot_not_isIdentifierChar)
  refine ⟨path, hname, ?_, hpath, rest', by rw [htext, hrest], hends⟩
  rintro rfl
  have hc' := hends.name c rest (by rw [hrest]; rfl)
  rw [hc] at hc'
  cases hc'

end Expression

namespace Page
open Pattern Cursor Expression

variable {before : Option Char} {text entity : Text} {path : List Text}

theorem matchAt_dottedPath (before : Option Char) (h : BeginsWithChain text entity path) :
    ∃ hit, dottedPath.matchAt (between before text) = some hit ∧
      hit.group .entity = entity ∧ hit.group .path = dotted path := by
  obtain ⟨hentity, hne, hpath, rest, rfl, hends⟩ := h
  let middle := between (behind before entity) (dotted path ++ rest)
  let after := between (behind (behind before entity) (dotted path)) rest
  have hrun : dottedPath.run ⟨between before (entity ++ (dotted path ++ rest)), []⟩ some =
      some ⟨after, [(.path, middle.spanTo after),
        (.entity, (between before (entity ++ (dotted path ++ rest))).spanTo middle)]⟩ := by
    rw [dottedPath, run_append, run_group]
    refine run_identifier_of_some hentity (head?_dotted_append path hends.char) ?_
    exact run_dotted_of_some hne hpath hends rfl
  refine ⟨_, by rw [matchAt, hrun]; rfl, ?_, ?_⟩
  · exact spanTo_text _ _ entity _
  · exact spanTo_text _ _ (dotted path) rest

theorem exists_chain_of_matchAt (h : dottedPath.matchAt (between before text) ≠ none) :
    ∃ entity path, BeginsWithChain text entity path := by
  by_contra hnone
  refine h ?_
  rw [matchAt, dottedPath, run_append, run_group]
  cases text with
  | nil => rfl
  | cons c more =>
    by_cases hc : isIdentifierStart c = true
    · rw [run_identifier_cons hc]
      · rw [run_group, plus, run_append, run_segment_none]
        · rfl
        · intro d rest hrest
          rw [← Bool.not_eq_true]
          intro hd
          refine hnone ⟨c :: more.takeWhile isIdentifierChar, ?_⟩
          have hname : IsIdentifier (c :: more.takeWhile isIdentifierChar) :=
            ⟨c, _, rfl, hc, fun e => List.mem_takeWhile_imp⟩
          refine exists_beginsWithChain rest hname hd ?_
          rw [List.cons_append, ← hrest, List.takeWhile_append_dropWhile]
      · intro before d rest hd
        rw [run_group, plus, run_append, run_segment_none]
        rintro e more ⟨⟩
        cases hd
    · rw [begins_identifier]
      · rfl
      · rintro d ⟨⟩
        simpa using hc

theorem drop_dotted (path : List Text) (hne : path ≠ []) :
    '.' :: (dotted path).drop 1 = dotted path := by
  obtain ⟨name, path, rfl⟩ := List.exists_cons_of_ne_nil hne
  rfl

theorem dot_not_mem_of_isIdentifier {name : Text} (h : IsIdentifier name) : '.' ∉ name := by
  obtain ⟨c, rest, rfl, hc, hrest⟩ := h
  rintro (_ | ⟨_, hmem⟩)
  · cases hc
  · exact absurd (hrest _ hmem) (by decide)

theorem splitPath?_eq_some {field : FieldPath} (htrimmed : Text.IsTrimmed text) :
    splitPath? text = some field ↔ ∃ path, BeginsWithChain text field.entity path ∧
      isGlobal field.entity = false ∧ field.text = field.entity ++ dotted path := by
  have hfields : ∀ {entity path} {other : FieldPath}, BeginsWithChain text entity path →
      (splitPath? text = some other ↔
        isGlobal entity = false ∧ other = ⟨entity, (dotted path).drop 1⟩) := by
    intro entity path other hchain
    obtain ⟨hit, hmatch, hentity, hpath⟩ := matchAt_dottedPath none hchain
    rw [splitPath?, htrimmed, start_eq, hmatch]
    simp only [hentity, hpath]
    split_ifs with hglobal
    · simp [hglobal]
    · simp [hglobal, eq_comm]
  constructor
  · intro h
    have hmatch : dottedPath.matchAt (between none text) ≠ none := by
      intro hnone
      rw [splitPath?, htrimmed, start_eq, hnone] at h
      cases h
    obtain ⟨entity, path, hchain⟩ := exists_chain_of_matchAt hmatch
    obtain ⟨hglobal, rfl⟩ := (hfields hchain).mp h
    exact ⟨path, hchain, hglobal, by rw [FieldPath.text, drop_dotted path hchain.path_ne]⟩
  · rintro ⟨path, hchain, hglobal, htext⟩
    refine (hfields hchain).mpr ⟨hglobal, ?_⟩
    rw [FieldPath.text, List.append_cancel_left_eq] at htext
    rw [← htext]
    rfl

theorem matchAt_dottedAccess (before : Option Char) (h : BeginsWithChain text entity path) :
    dottedAccess.matchAt (between before text) ≠ none := by
  obtain ⟨hentity, hne, hpath, rest, rfl, hends⟩ := h
  obtain ⟨name, path, rfl⟩ := List.exists_cons_of_ne_nil hne
  obtain ⟨hname, -⟩ := List.forall_mem_cons.mp hpath
  have hrun : dottedAccess.run ⟨between before (entity ++ (dotted (name :: path) ++ rest)), []⟩
    some =
      some ⟨between (behind (behind before entity) ('.' :: name)) (dotted path ++ rest), []⟩ := by
    rw [dottedAccess, run_append, run_append]
    refine run_identifier_of_some hentity (head?_dotted_append _ hends.char) ?_
    rw [dotted_cons, List.cons_append, List.append_assoc]
    exact run_segment_of_some hname (head?_dotted_append path hends.char) rfl
  rw [matchAt, hrun]
  exact Option.some_ne_none _

theorem occursIn_dottedAccess (h : BeginsWithChain text entity path) :
    dottedAccess.occursIn text := by
  obtain ⟨hit, hhit⟩ := Option.ne_none_iff_exists'.mp (matchAt_dottedAccess none h)
  rw [occursIn, search_of_matchAt hhit]
  rfl

theorem occursIn_dottedAccess_of_simple (h : classify text = .simpleReference) :
    dottedAccess.occursIn (Text.trim text) = false := by
  simp only [classify] at h
  split_ifs at h with _ _ hdotted
  simpa using hdotted

theorem splitPath?_of_simple (h : classify text = .simpleReference) : splitPath? text = none := by
  have hnone : dottedPath.matchAt (between none (Text.trim text)) = none := by
    by_contra hmatch
    obtain ⟨entity, path, hchain⟩ := exists_chain_of_matchAt hmatch
    have hoccurs := occursIn_dottedAccess hchain
    rw [occursIn_dottedAccess_of_simple h] at hoccurs
    cases hoccurs
  rw [splitPath?, start_eq, hnone]

/-- The trimmed texts on both sides of the first dot. -/
def AroundDot (text before after : Text) : Prop :=
  ∃ first last, text = first ++ '.' :: last ∧ '.' ∉ first ∧ before = Text.trim first ∧
    after = Text.trim last

theorem cutAt?_dot {first : Text} (last : Text) (h : '.' ∉ first) :
    Text.cutAt? (· == '.') (first ++ '.' :: last) = some (first, last) := by
  have hfirst : ∀ c ∈ first, (!(c == '.')) = true := by
    intro c hc
    simpa using fun hdot : c = '.' => h (hdot ▸ hc)
  rw [Text.cutAt?, List.dropWhile_append_of_pos hfirst, List.takeWhile_append_of_pos hfirst]
  simp

theorem splitAtDot?_eq_some {field : FieldPath} (htrimmed : Text.IsTrimmed text) :
    splitAtDot? text = some field ↔ AroundDot text field.entity field.path ∧
      field.entity ≠ [] ∧ field.path ≠ [] ∧ isGlobal field.entity = false := by
  have hcut : ∀ {first last : Text}, '.' ∉ first → text = first ++ '.' :: last →
      (splitAtDot? text = some field ↔ field = ⟨Text.trim first, Text.trim last⟩ ∧
        field.entity ≠ [] ∧ field.path ≠ [] ∧ isGlobal field.entity = false) := by
    intro first last hfirst htext
    rw [splitAtDot?, htrimmed, htext, cutAt?_dot last hfirst]
    simp only
    split_ifs with hmissing
    · simp only [Bool.or_eq_true, List.isEmpty_iff] at hmissing
      constructor
      · rintro ⟨⟩
      · rintro ⟨rfl, hentity, hpath, hglobal⟩
        rcases hmissing with (h | h) | h
        · exact absurd h hentity
        · exact absurd h hpath
        · rw [hglobal] at h
          cases h
    · simp only [Bool.or_eq_true, List.isEmpty_iff, not_or, Bool.not_eq_true] at hmissing
      rw [Option.some_inj]
      constructor
      · rintro rfl
        exact ⟨rfl, hmissing.1.1, hmissing.1.2, hmissing.2⟩
      · exact fun h => h.1.symm
  by_cases hdot : '.' ∈ text
  · obtain ⟨first, last, htext, hfirst⟩ := List.eq_append_cons_of_mem hdot
    rw [hcut hfirst htext]
    refine and_congr_left fun _ => ⟨?_, ?_⟩
    · rintro rfl
      exact ⟨first, last, htext, hfirst, rfl, rfl⟩
    · rintro ⟨first', last', htext', hfirst', hentity, hpath⟩
      have hsame := cutAt?_dot last hfirst
      rw [← htext, htext', cutAt?_dot last' hfirst'] at hsame
      cases hsame
      rw [← hentity, ← hpath]
  · have hnone : splitAtDot? text = none := by
      have hall : text.dropWhile (fun c => !(c == '.')) = [] :=
        List.dropWhile_eq_nil_iff.mpr fun c hc => by simpa using fun h : c = '.' => hdot (h ▸ hc)
      rw [splitAtDot?, htrimmed, Text.cutAt?, hall]
    rw [hnone]
    constructor
    · rintro ⟨⟩
    · rintro ⟨⟨first, last, htext, -⟩, -⟩
      exact absurd (by simp [htext]) hdot

/-- An identifier that has no dollar sign. -/
def IsPlainIdentifier (name : Text) : Prop :=
  ∃ c rest, name = c :: rest ∧ (c.isAlpha || c == '_') = true ∧ ∀ d ∈ rest, Text.isWord d

/-- In a trimmed text nothing can follow a plain identifier, not even a line feed. -/
theorem startsWith_plainIdentifier (htrimmed : Text.IsTrimmed text) :
    startsWith plainIdentifier text = true ↔ IsPlainIdentifier text := by
  cases text with
  | nil =>
    constructor
    · rintro ⟨⟩
    · rintro ⟨c, rest, ⟨⟩, -⟩
  | cons c text =>
    have hstarts : startsWith plainIdentifier (c :: text) = true ↔
        (c.isAlpha || c == '_') = true ∧
          (text.dropWhile Text.isWord = [] ∨ text.dropWhile Text.isWord = ['\n']) := by
      rw [startsWith, matchAt, start_eq, plainIdentifier, run_append, run_append, run_one_cons]
      split_ifs with hc
      · rw [wordChar, run_starOne_takeWhile]
        · rw [run_guard]
          simp [hc]
        · intro before d rest hd
          rw [run_guard, if_neg]
          simp only [between_rest, List.isEmpty_cons, Bool.false_or, beq_iff_eq, List.cons.injEq]
          rintro ⟨rfl, -⟩
          cases hd
      · simp [hc]
    rw [hstarts]
    constructor
    · rintro ⟨hc, hnil | hfeed⟩
      · exact ⟨c, text, rfl, hc, List.dropWhile_eq_nil_iff.mp hnil⟩
      · have hlast := (Text.isTrimmed_iff.mp htrimmed).2 '\n' (by
          rw [← List.takeWhile_append_dropWhile (p := Text.isWord) (l := text), hfeed,
            ← List.cons_append, List.getLast?_concat]
          rfl)
        cases hlast
    · rintro ⟨d, rest, heq, hd, hrest⟩
      cases heq
      exact ⟨hd, .inl (List.dropWhile_eq_nil_iff.mpr hrest)⟩

end Page
end Visualforce
