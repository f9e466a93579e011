import Visualforce.Proofs.Markup.OrdinaryToken
import Visualforce.Proofs.Markup.TagItem

/-! # Assignments in ordinary pages

Some patterns look for a name and an equals sign anywhere in a text. In an ordinary page an equals
sign stands after the name of an attribute and nowhere else, so such a pattern can match at the
attributes only.
-/
namespace Visualforce.Markup
open Pattern Cursor
open Expression (IsMarked)

variable {κ α : Type} {groups : List (κ × Span)} {goOn : Place κ → Option (Place κ)}
variable {before : Option Char} {pattern : Pattern κ} {view : Hit κ → α}

/-- The first character after a run of name characters and blanks. -/
def afterName (text : Text) : Option Char :=
  ((text.dropWhile isTagNameChar).dropWhile Text.isBlank).head?

/-- No place before the text begins a name that an equals sign follows. -/
abbrev AvoidsEquals : Text → Prop := Avoids afterName '='

theorem avoidsEquals_nil : AvoidsEquals [] := by
  intro passed _ hpassed h
  rw [List.append_nil] at h
  have hmem := List.mem_of_head? h
  exact hpassed ((List.dropWhile_suffix _).subset ((List.dropWhile_suffix _).subset hmem))

/-- A character that is in no name, no blank and no equals sign keeps names before it from leading
further. -/
theorem avoidsEquals_cons {c : Char} (hname : isTagNameChar c = false)
    (hblank : Text.isBlank c = false)
    (hc : c ≠ '=') (rest : Text) : AvoidsEquals (c :: rest) := by
  intro passed _ hpassed
  obtain ⟨left, hleft, heq⟩ := Text.exists_suffix_dropWhile isTagNameChar passed hname rest
  obtain ⟨more, hmore, heq'⟩ := Text.exists_suffix_dropWhile Text.isBlank left hblank rest
  rw [afterName, heq, heq']
  exact Text.head?_append_ne (fun hmem => hpassed (hleft.subset (hmore.subset hmem))) fun h =>
    hc (Option.some.inj h)

/-- Neither does a name lead across a blank to the equals sign of another name. -/
theorem afterName_append_blank {c : Char} (hblank : Text.isBlank c = false) (hc : c ≠ '=')
    (rest : Text)
    {passed : Text} (hpassed : '=' ∉ passed) : afterName (passed ++ ' ' :: c :: rest) ≠
    some '=' := by
  obtain ⟨left, hleft, heq⟩ :=
    Text.exists_suffix_dropWhile isTagNameChar passed (by decide : isTagNameChar ' ' = false)
      (c :: rest)
  obtain ⟨more, hmore, heq'⟩ :=
    Text.exists_suffix_dropWhile Text.isBlank (left ++ [' ']) hblank rest
  rw [List.append_assoc, List.singleton_append] at heq'
  rw [afterName, heq, heq']
  refine Text.head?_append_ne (fun hmem => ?_) fun h => hc (Option.some.inj h)
  rcases List.mem_append.mp (hmore.subset hmem) with h | h
  · exact hpassed (hleft.subset h)
  · simp at h

theorem afterName_append {name : Text} (hname : ∀ c ∈ name, isTagNameChar c) (rest : Text) :
    afterName (name ++ rest) = afterName rest := by
  rw [afterName, List.dropWhile_append_of_pos hname, afterName]

theorem run_equalsSign_of_afterName {text : Text} (h : afterName text ≠ some '=') :
    equalsSign.run ⟨between before text, groups⟩ goOn = none := by
  refine run_equalsSign_of_ne fun heq => h ?_
  cases text with
  | nil => exact heq
  | cons c rest =>
    by_cases hc : isTagNameChar c
    · rw [List.dropWhile_cons_of_neg (by simp [isBlank_of_isTagNameChar hc])] at heq
      cases heq
      exact absurd hc (by decide)
    · rw [afterName, List.dropWhile_cons_of_neg hc]
      exact heq

/-- A pattern that matches at the beginning of a word only, and only before an equals sign. -/
structure IsAssignment (pattern : Pattern κ) : Prop where
  equals : ∀ before text, afterName text ≠ some '=' → pattern.matchAt (between before text) = none
  edge : ∀ before c rest, before.any Text.isWord → Text.isWord c →
    pattern.matchAt (between before (c :: rest)) = none
  sign : ∀ before rest, pattern.matchAt (between before ('=' :: rest)) = none

/-- An attribute after its space and its name. -/
def Attribute.assigned (attr : Attribute) : Text := '=' :: '"' :: (attr.value ++ ['"'])

theorem Attribute.source_eq (attr : Attribute) :
    attr.source = [' '] ++ (attr.name ++ attr.assigned) := rfl

/-- A name that begins with a letter or an underscore. -/
def BeginsName (name : Text) : Prop := ∃ c more, name = c :: more ∧ isTagNameStart c

theorem beginsName_of_isWordName {name : Text} (h : isWordName name) : BeginsName name := by
  obtain ⟨c, more, hcons, hc, -⟩ := exists_cons_of_isWordName h
  exact ⟨c, more, hcons, hc⟩

theorem Attribute.afterName_source {attr : Attribute} (hname : BeginsName attr.name) (rest : Text)
    {passed : Text} (hpassed : '=' ∉ passed) : afterName (passed ++ (attr.source ++ rest)) ≠
    some '=' := by
  obtain ⟨c, more, hcons, hc⟩ := hname
  have hpart := isNamePart_of_isTagNameStart hc
  rw [Attribute.source_eq, hcons]
  exact afterName_append_blank (isBlank_of_isNamePart hpart)
    (fun h => absurd (h ▸ hpart) (by decide)) _ hpassed

theorem Attribute.avoidsEquals_source {attr : Attribute} (hname : BeginsName attr.name)
    (rest : Text) :
    AvoidsEquals (attr.source ++ rest) := fun _ _ => attr.afterName_source hname rest

namespace IsAssignment

variable {attr : Attribute} (h : IsAssignment pattern)
include h

theorem yields_of_not_mem {passed : Text} (hpassed : '=' ∉ passed) :
    Yields pattern (seen view) AvoidsEquals passed [] :=
  yields_of_avoids h.equals hpassed

/-- Inside a word there is no edge, so nothing matches up to its end. -/
theorem quiet_inside {name rest : Text} (hname : ∀ c ∈ name, Text.isWord c)
    (hbefore : before.any Text.isWord) : Quiet pattern before name rest := by
  induction name generalizing before with
  | nil => trivial
  | cons c name ih =>
    obtain ⟨hc, hname⟩ := List.forall_mem_cons.mp hname
    exact ⟨h.edge before c _ hbefore hc, ih hname (by simpa using hc)⟩

theorem quiet_of_miss (hname : isWordName attr.name) (hvalue : '=' ∉ attr.value)
    (before : Option Char)
    {rest : Text} (hrest : AvoidsEquals rest)
    (hmiss : pattern.matchAt (between (some ' ') (attr.name ++ (attr.assigned ++ rest))) = none) :
    Quiet pattern before attr.source rest := by
  obtain ⟨c, more, hcons, hc, hmore⟩ := exists_cons_of_isWordName hname
  have hspace : pattern.matchAt (between before (' ' :: (attr.name ++ attr.assigned ++ rest))) =
    none :=
    h.equals _ _ (attr.afterName_source (beginsName_of_isWordName hname) rest List.not_mem_nil)
  have hword : Quiet pattern (some ' ') attr.name (attr.assigned ++ rest) := by
    rw [hcons] at hmiss ⊢
    refine ⟨hmiss, h.quiet_inside (fun d hd => isWord_of_isNamePart (hmore d hd)) ?_⟩
    exact isWord_of_isNamePart (isNamePart_of_isTagNameStart hc)
  have hassigned : Quiet pattern (behind (some ' ') attr.name) attr.assigned rest := by
    have hquoted : '=' ∉ '"' :: (attr.value ++ ['"']) := by simpa using hvalue
    exact ⟨h.sign _ _, quiet_of_avoids h.equals hquoted hrest⟩
  exact ⟨hspace, hword.append hassigned⟩

/-- An attribute at whose name the pattern does not match shows nothing. -/
theorem yields_of_miss (hname : isWordName attr.name) (hvalue : '=' ∉ attr.value)
    (hmiss : ∀ rest, pattern.matchAt (between (some ' ') (attr.name ++ (attr.assigned ++ rest))) =
    none) :
    Yields pattern (seen view) AvoidsEquals attr.source [] :=
  .of_quiet (fun rest _ => attr.avoidsEquals_source (beginsName_of_isWordName hname) rest)
    fun before rest hrest => h.quiet_of_miss hname hvalue before hrest (hmiss rest)

/-- An attribute that the pattern matches as a whole shows what the match shows. -/
theorem yields_of_hit {value : α} (hname : BeginsName attr.name)
    (hhit : ∀ rest, ∃ hit, pattern.matchAt
      (between (some ' ') (attr.name ++ (attr.assigned ++ rest))) = some hit ∧
        hit.stop = between (some '"') rest ∧ view hit = value) :
    Yields pattern (seen view) AvoidsEquals attr.source [value] := by
  refine ⟨fun before rest _ => ?_, fun rest _ => attr.avoidsEquals_source hname rest⟩
  obtain ⟨hit, hmatch, hstop, rfl⟩ := hhit rest
  have hspace : pattern.matchAt (between before (' ' :: (attr.name ++ attr.assigned ++ rest))) =
    none :=
    h.equals _ _ (attr.afterName_source hname rest List.not_mem_nil)
  rw [List.append_assoc] at hspace
  have hlt : hit.stop.left < (between (some ' ') (attr.name ++ (attr.assigned ++ rest))).left := by
    rw [hstop]
    simp [Attribute.assigned]
    omega
  have hend : Scans pattern (seen view) hit.stop [] (between (some '"') rest) := by
    rw [hstop]
    exact .done _
  refine ⟨some '"', ?_⟩
  rw [Attribute.source_eq, List.append_assoc, List.append_assoc]
  exact .skip rfl hspace ((Scans.single view hmatch hlt).append hend)

/-- A start tag shows what its attributes show. -/
theorem yields_opening {head : Head} {expected : Attribute → List α} (htag : '=' ∉ head.tag)
    (hattr : ∀ attr ∈ head.attributes,
      Yields pattern (seen view) AvoidsEquals attr.source (expected attr)) (closes : Bool) :
    Yields pattern (seen view) AvoidsEquals (Token.opening head closes).source
      (head.attributes.flatMap expected) := by
  have hbegin : Yields pattern (seen view) AvoidsEquals ('<' :: head.tag) [] :=
    h.yields_of_not_mem (by simpa using htag)
  have hend : Yields pattern (seen view) AvoidsEquals (tagEnd closes) [] :=
    h.yields_of_not_mem (by cases closes <;> simp [tagEnd, slash])
  have hyields := hbegin.append ((Yields.flatMap hattr).append hend)
  rw [List.nil_append, List.append_nil] at hyields
  exact hyields

def assignedAt (expected : Attribute → List α) : Token → List α
  | .opening head _ => head.attributes.flatMap expected
  | _ => []

/-- An ordinary token shows what the attributes show, if it is a start tag, and nothing
otherwise. -/
theorem yields_token {token : Token} {expected : Attribute → List α} (hordinary : token.IsOrdinary)
    (hattr : ∀ attr, isWordName attr.name → attr.name ≠ "xmlns".toList →
      IsMarked isPlainValueChar attr.value →
      Yields pattern (seen view) AvoidsEquals attr.source (expected attr)) :
    Yields pattern (seen view) AvoidsEquals token.source (assignedAt expected token) := by
  have htag : ∀ {tag}, IsOrdinaryTag tag → '=' ∉ tag :=
    fun htag => htag.not_mem (by decide) (by decide)
  cases token with
  | text content =>
    exact h.yields_of_not_mem (IsMarked.not_mem hordinary (by decide) (by decide))
  | opening head closes =>
    have hhead : head.IsOrdinary := hordinary
    refine h.yields_opening (htag hhead.tag) (fun attr hmem => ?_) closes
    exact hattr attr (hhead.names attr hmem).1 (hhead.names attr hmem).2 (hhead.values attr hmem)
  | closing tag =>
    refine h.yields_of_not_mem fun hmem => htag hordinary ?_
    simpa [Token.source] using hmem

end IsAssignment

theorem flatMap_assignedAt (expected : Attribute → List α) (tokens : List Token) :
    tokens.flatMap (IsAssignment.assignedAt expected) =
      ((headsOf tokens).flatMap (·.attributes)).flatMap expected := by
  induction tokens with
  | nil => rfl
  | cons token tokens ih =>
    rw [List.flatMap_cons, ih]
    cases token with
    | text content => rfl
    | closing tag => rfl
    | opening head closes =>
      rw [headsOf_opening, List.flatMap_cons, List.flatMap_append]
      rfl

/-- What follows the word of an assignment: it matches where an equals sign comes next, and never
inside the word. -/
structure IsAssigner (next : Pattern κ) : Prop where
  equals : ∀ before text groups goOn, afterName text ≠ some '=' →
    next.run ⟨between before text, groups⟩ goOn = none
  inside : ∀ before c rest groups goOn, isNamePart c →
    next.run ⟨between before (c :: rest), groups⟩ goOn = none

theorem isAssigner_equalsSign : IsAssigner (equalsSign : Pattern κ) where
  equals _ _ _ _ h := run_equalsSign_of_afterName h
  inside before c rest groups goOn hc := by
    refine run_equalsSign_of_ne ?_
    rw [List.dropWhile_cons_of_neg (by simp [isBlank_of_isNamePart hc])]
    rintro ⟨⟩
    exact absurd hc (by decide)

theorem IsAssigner.append {first : Pattern κ} (h : IsAssigner first) (second : Pattern κ) :
    IsAssigner (first ++ second) where
  equals before text groups _ := h.equals before text groups _
  inside before c rest groups _ := h.inside before c rest groups _

section Word
variable {word : Text} {next : Pattern κ} (hword : isWordName word) (hnext : IsAssigner next)
  (hpattern : ∀ here goOn, pattern.run here goOn = (wordEdge ++ exactly word ++ next).run here goOn)
include hword hnext hpattern

theorem isAssignment_of_word : IsAssignment pattern := by
  obtain ⟨c, more, hcons, hc, -⟩ := exists_cons_of_isWordName hword
  have hnone : ∀ before text goOn, (¬ word <+: text) →
      pattern.run ⟨between before text, []⟩ goOn = none := by
    intro before text goOn hfront
    rw [hpattern, run_append, run_append, run_wordEdge, run_exactly_of_not_isPrefix hfront,
      ite_self]
  refine ⟨fun before text htext => ?_, fun before d rest hbefore hd => ?_, fun before rest => ?_⟩
  · by_cases hfront : word <+: text
    · obtain ⟨tail, rfl⟩ := hfront
      have hname : ∀ c ∈ word, isTagNameChar c := by
        intro c hc
        exact isTagNameChar_of_isNamePart (forall_mem_of_isWordName hword c hc)
      rw [afterName_append hname] at htext
      rw [matchAt, hpattern, run_append, run_append, run_wordEdge, run_exactly_append,
        hnext.equals _ _ _ _ htext, ite_self]
      rfl
    · rw [matchAt, hnone before text some hfront]
      rfl
  · rw [matchAt, hpattern, run_append, run_append, run_wordEdge, if_neg]
    · rfl
    · simp [hbefore, hd]
  · rw [matchAt, hnone]
    · rfl
    · rw [hcons, List.cons_prefix_cons]
      rintro ⟨rfl, -⟩
      exact absurd hc (by decide)

omit hnext in
/-- At an attribute of this name the match goes on after the name. -/
theorem run_word_of_name (rest : Text) (goOn : Place κ → Option (Place κ)) :
    pattern.run ⟨between (some ' ') (word ++ rest), []⟩ goOn =
      next.run ⟨between (behind (some ' ') word) rest, []⟩ goOn := by
  obtain ⟨c, more, rfl, hc, -⟩ := exists_cons_of_isWordName hword
  have hedge : (some ' ').any Text.isWord != (c :: more ++ rest).head?.any Text.isWord := by
    rw [List.cons_append, List.head?_cons, Option.any_some, Option.any_some,
      isWord_of_isNamePart (isNamePart_of_isTagNameStart hc)]
    decide
  rw [hpattern, run_append, run_append, run_wordEdge, if_pos hedge, run_exactly_append]

theorem matchAt_word_of_ne {name rest : Text} (hname : isWordName name) (hne : name ≠ word)
    (hrest : ∀ c ∈ rest.head?, isNamePart c = false) :
    pattern.matchAt (between (some ' ') (name ++ rest)) = none := by
  have hrun : pattern.run ⟨between (some ' ') (name ++ rest), []⟩ some = none := by
    rw [hpattern, run_append, run_append, run_wordEdge]
    by_cases hfront : word <+: name ++ rest
    · obtain ⟨tail, htail⟩ := hfront
      have hnone : next.run ⟨between (behind (some ' ') word) tail, []⟩ some = none := by
        obtain ⟨more, hmore, rfl⟩ | ⟨more, hmore, rfl⟩ := List.append_eq_append_iff.mp htail
        · cases more with
          | nil => exact absurd (by simpa using hmore) hne
          | cons d more =>
            refine hnext.inside _ _ _ _ _ (forall_mem_of_isWordName hname d ?_)
            rw [hmore]
            simp
        · cases more with
          | nil => exact absurd (by simpa using hmore.symm) hne
          | cons d more =>
            have hpart := forall_mem_of_isWordName hword d (by rw [hmore]; simp)
            rw [hrest d rfl] at hpart
            cases hpart
      rw [← htail, run_exactly_append, hnone, ite_self]
    · rw [run_exactly_of_not_isPrefix hfront, ite_self]
  rw [matchAt, hrun]
  rfl

end Word

theorem isAssigner_assignedValue (key : κ) : IsAssigner (assignedValue key) :=
  ((isAssigner_equalsSign.append _).append _).append _

end Visualforce.Markup
