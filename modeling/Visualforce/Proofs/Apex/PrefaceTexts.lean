import Visualforce.Proofs.Apex.Prefaces

/-! # What stands in front of declarations

Documentation and annotations are closed where they are written: an annotation that begins in one of
them ends in it, documentation begins only where it is written, and no member begins in either.
-/
namespace Visualforce.Apex
open Pattern Cursor

variable {prefaces : List Preface} {preface : Preface} {front text part more rest : Text}
    {before : Option Char}

/-- What begins in the text as an annotation is closed in it, the blanks behind it apart. -/
def HoldsAnnotations (text : Text) : Prop :=
  ∀ ⦃front part : Text⦄, text = front ++ part → part ≠ [] → ∀ (a : AnnotationText) ⦃more rest :
    Text⦄, a.source ++ more = part ++ rest → a.mark ++ a.argumentsSource <+: part

theorem AnnotationText.mark_isPrefix (a : AnnotationText) {c : Char} (hat : c ≠ '@')
    (hc : Text.isWord c = false)
    (h : a.source ++ more = text ++ c :: rest) : ∃ left, text = a.mark ++ left ∧
      a.argumentsSource ++ (a.space ++ more) = left ++ c :: rest := by
  rw [AnnotationText.source, List.append_assoc, List.append_assoc] at h
  exact Text.exists_of_append_eq_cons (a.not_mem_mark hat hc) h

theorem holdsAnnotations_blanks (h : ∀ c ∈ text, Text.isBlank c) : HoldsAnnotations text := by
  intro front part hsplit hne a more rest hpart
  obtain ⟨c, part, rfl⟩ := List.exists_cons_of_ne_nil hne
  obtain rfl : '@' = c := (List.cons.inj hpart).1
  exact absurd (h '@' (by simp [hsplit])) (by decide)

theorem IsPlainDoc.not_isInfix (h : IsPlainDoc text) : ¬ ['*', '/'] <:+: text :=
  fun hmem => h.closed (hmem.trans (List.suffix_cons '*' text).isInfix)

theorem holdsAnnotations_doc (h : IsPlainDoc text) : HoldsAnnotations (documentation text) := by
  intro front part hsplit hne a more rest hpart
  have hend : documentation text = ('/' :: '*' :: '*' :: (text ++ ['*'])) ++ ['/'] := by
    simp [documentation, blockComment]
  obtain ⟨body, rfl⟩ := exists_stop (hend.symm.trans hsplit) hne
  rw [List.append_assoc, List.singleton_append] at hpart
  obtain ⟨left, rfl, hleft⟩ := a.mark_isPrefix (by decide) (by decide) hpart
  rcases a.argumentsSource_cases with harguments | ⟨inside, harguments, -⟩
  · rw [harguments, List.append_nil, List.append_assoc]
    exact List.prefix_append _ _
  · -- arguments would begin in the documentation
    exfalso
    obtain ⟨behind, hbehind⟩ : ∃ behind, left ++ ['/'] = '(' :: behind := by
      rw [harguments, List.cons_append] at hleft
      cases left with
      | nil => exact absurd (List.cons.inj hleft).1 (by decide)
      | cons c left => exact ⟨left ++ ['/'], by rw [← (List.cons.inj hleft).1]; rfl⟩
    have hsource : documentation text = front ++ '@' :: (a.name ++ '(' :: behind) := by
      rw [hsplit, List.append_assoc, hbehind]
      rfl
    have hrun := run_of_not_occursIn h.bare hsource
    have hname : (plus wordChar ++ char '(' : Pattern Unit).run
      ⟨between (some '@') (a.name ++ '(' :: behind), []⟩ some =
        some ⟨between (some '(') behind, []⟩ := by
      refine run_plusOne_of_some a.isName.1 a.isName.2 ?_ rfl
      rintro c ⟨⟩
      decide
    exact absurd (hname.symm.trans hrun) (Option.some_ne_none _)

/-- What begins in front of a piece without an at sign goes on over it. -/
theorem exists_in_front {c : Char} (hpiece : '@' ∉ c :: more)
    (h : text ++ c :: more = front ++ '@' :: part) :
    ∃ left, left <:+ text ∧ '@' :: part = left ++ c :: more := by
  obtain ⟨left, -, hleft⟩ | ⟨left, htext, hleft⟩ := List.append_eq_append_iff.mp h
  · exact absurd (hleft ▸ List.mem_append_right left List.mem_cons_self) hpiece
  · exact ⟨left, ⟨front, htext.symm⟩, hleft⟩

theorem AnnotationText.holdsAnnotations (a : AnnotationText) : HoldsAnnotations a.source := by
  intro front part hsplit hne b more rest hpart
  obtain ⟨c, tail, rfl⟩ := List.exists_cons_of_ne_nil hne
  obtain rfl : '@' = c := (List.cons.inj hpart).1
  have hspace : '@' ∉ a.space := fun hmem => absurd (a.isSpace.2 '@' hmem) (by decide)
  rcases a.argumentsSource_cases with harguments | ⟨inside, harguments, hinside⟩
  · -- without arguments a blank ends both annotations
    obtain ⟨d, space, hd⟩ := List.exists_cons_of_ne_nil a.isSpace.1
    have hblank : Text.isBlank d := a.isSpace.2 d (hd ▸ List.mem_cons_self)
    have hne : d ≠ '@' ∧ d ≠ '(' := by
      refine ⟨?_, ?_⟩
      · rintro rfl
        cases hblank
      · rintro rfl
        cases hblank
    rw [source, harguments, List.nil_append, hd] at hsplit
    obtain ⟨left, hleft, hsource⟩ := exists_in_front (hd ▸ hspace) hsplit
    rw [hsource, List.append_assoc] at hpart
    obtain ⟨behind, rfl, hbehind⟩ := b.mark_isPrefix hne.1 (Text.isWord_of_isBlank hblank) hpart
    rcases b.argumentsSource_cases with harguments' | ⟨inside, harguments', -⟩
    · rw [harguments', hsource, List.append_nil, List.append_assoc]
      exact List.prefix_append _ _
    · rw [harguments', List.cons_append] at hbehind
      cases behind with
      | nil => exact absurd (List.cons.inj hbehind).1.symm hne.2
      | cons e behind =>
        rw [← (List.cons.inj hbehind).1] at hleft
        have hmem : '(' ∈ a.mark := hleft.subset (by simp)
        exact absurd hmem (a.not_mem_mark (by decide) (by decide))
  · -- the first closing parenthesis ends both lists of arguments
    have hclose : '@' ∉ ')' :: a.space := List.not_mem_cons_of_ne_of_not_mem (by decide) hspace
    have hsplit' : (a.mark ++ '(' :: inside) ++ ')' :: a.space = front ++ '@' :: tail := by
      rw [← hsplit, source, harguments]
      simp
    obtain ⟨left, hleft, hsource⟩ := exists_in_front hclose hsplit'
    have hopen : ')' ∉ a.mark ++ '(' :: inside := by
      rw [List.mem_append, not_or]
      exact ⟨a.not_mem_mark (by decide) (by decide), List.not_mem_cons_of_ne_of_not_mem (by decide)
        hinside⟩
    have hnot : ')' ∉ left := fun hmem => hopen (hleft.subset hmem)
    rw [hsource, List.append_assoc] at hpart
    rw [hsource]
    obtain ⟨behind, rfl, hbehind⟩ := b.mark_isPrefix (by decide) (by decide) hpart
    rcases b.argumentsSource_cases with harguments' | ⟨inside', harguments', hinside'⟩
    · rw [harguments', List.append_nil, List.append_assoc]
      exact List.prefix_append _ _
    · rw [harguments', List.cons_append, List.append_assoc, ← List.cons_append] at hbehind
      have hpassed : ')' ∉ '(' :: inside' := List.not_mem_cons_of_ne_of_not_mem (by decide) hinside'
      obtain ⟨others, rfl, hothers⟩ := Text.exists_of_append_eq_cons hpassed hbehind
      cases others with
      | nil =>
        rw [harguments', List.append_nil, ← List.cons_append, ← List.append_assoc]
        exact List.prefix_append_right_inj _ |>.mpr ⟨a.space, rfl⟩
      | cons e others =>
        rw [← (List.cons.inj hothers).1] at hnot
        exact absurd (by simp) hnot

namespace Preface.IsPlain

theorem holdsAnnotations (h : preface.IsPlain) : HoldsAnnotations preface.source := by
  cases preface with
  | blanks text => exact holdsAnnotations_blanks h
  | doc text => exact holdsAnnotations_doc h
  | marked a => exact a.holdsAnnotations

theorem isPassage (h : preface.IsPlain) (hne : preface.source ≠ []) : IsPassage preface.source := by
  cases preface with
  | blanks text =>
    obtain ⟨inside, stop, hshape⟩ := (List.eq_nil_or_concat' text).resolve_left hne
    exact ⟨⟨inside, stop, hshape, .inr (h stop (by simp [hshape]))⟩, isWordless_blanks h⟩
  | doc text =>
    exact ⟨⟨'/' :: '*' :: '*' :: (text ++ ['*']), '/', by
      simp [Preface.source, documentation, blockComment], .inl rfl⟩, h.wordless⟩
  | marked a =>
    obtain ⟨inside, stop, hspace⟩ := (List.eq_nil_or_concat' a.space).resolve_left a.isSpace.1
    refine ⟨⟨a.mark ++ (a.argumentsSource ++ inside), stop, ?_,
      .inr (a.isSpace.2 stop (by simp [hspace]))⟩, h.wordless⟩
    simp [Preface.source, AnnotationText.source, hspace]

theorem keepsAhead (h : preface.IsPlain) : KeepsAhead preface.source := by
  cases preface with
  | blanks text => exact keepsAhead_blanks h
  | doc text => exact keepsAhead_cons (by decide)
  | marked a => exact keepsAhead_cons (by decide)

/-- Documentation begins only where it is written. -/
theorem eq_of_isPrefix (h : preface.IsPlain) (hsplit : preface.source = front ++ part)
    (hne : part ≠ [])
    (hrest : rest.head? ≠ some '*') (hdoc : "/**".toList <+: part ++ rest) :
    ∃ text, preface = .doc text ∧ part = documentation text := by
  have hstop : ∀ c ∈ rest.head?, c ∉ "/**".toList.tail := by
    have hall : ∀ d ∈ "/**".toList.tail, d = '*' := by decide
    intro c hc hmem
    exact hrest (hall c hmem ▸ hc)
  have hinside : "/**".toList <+: part := by
    by_contra hnot
    exact Text.not_isPrefix_append hnot hne hstop hdoc
  cases preface with
  | blanks text =>
    obtain ⟨others, rfl⟩ := hinside
    have hslash : '/' ∈ text := by
      rw [show text = _ from hsplit]
      simp
    exact absurd (h '/' hslash) (by decide)
  | doc text =>
    cases front with
    | nil => exact ⟨text, rfl, hsplit.symm⟩
    | cons c front =>
      have htail : (documentation text).tail = front ++ part := congrArg List.tail hsplit
      exact absurd (htail ▸ hinside.isInfix.trans (List.suffix_append front part).isInfix) h.single
  | marked a =>
    have hsource : a.source = front ++ part := hsplit
    exact absurd (hsource ▸ hinside.isInfix.trans (List.suffix_append front part).isInfix) h.single

end Preface.IsPlain

def prefaceText (prefaces : List Preface) : Text := prefaces.flatMap Preface.source

/-- From any place on there is the end of one of the prefaces and all those behind it. -/
theorem exists_preface (h : prefaceText prefaces = front ++ text) (hne : text ≠ []) :
    ∃ preface ∈ prefaces, ∃ passed part later, preface.source = passed ++ part ∧ part ≠ [] ∧
      later <:+ prefaces ∧
      text = part ++ prefaceText later := by
  induction prefaces generalizing front with
  | nil => exact absurd (List.append_eq_nil_iff.mp h.symm).2 hne
  | cons preface prefaces ih =>
    obtain ⟨left, rfl, hleft⟩ | ⟨left, hsource, hleft⟩ := List.append_eq_append_iff.mp h
    · obtain ⟨preface', hmem, passed, part, later, hsource, hpart, hlater, rfl⟩ := ih hleft
      exact ⟨preface', .tail _ hmem, passed, part, later, hsource, hpart,
        hlater.trans (List.suffix_cons _ _), rfl⟩
    · cases left with
      | nil =>
        have hprefaces : prefaceText prefaces = [] ++ text := hleft.symm
        obtain ⟨preface', hmem, passed, part, later, hsource, hpart, hlater, rfl⟩ := ih hprefaces
        exact ⟨preface', .tail _ hmem, passed, part, later, hsource, hpart,
          hlater.trans (List.suffix_cons _ _), rfl⟩
      | cons c left =>
        exact ⟨preface, .head _, front, c :: left, prefaces, hsource, List.cons_ne_nil c left,
          List.suffix_cons _ _, hleft⟩

theorem keepsAhead_prefaces (h : ∀ preface ∈ prefaces, preface.IsPlain) :
    KeepsAhead (prefaceText prefaces) := by
  induction prefaces with
  | nil => exact fun _ hrest => hrest
  | cons preface prefaces ih =>
    obtain ⟨hpreface, hprefaces⟩ := List.forall_mem_cons.mp h
    exact hpreface.keepsAhead.append (ih hprefaces)

end Visualforce.Apex
