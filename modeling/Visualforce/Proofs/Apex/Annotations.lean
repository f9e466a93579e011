import Visualforce.Proofs.Apex.Outline

/-! # AnnotationText lists

An annotation is a name behind an at sign, and arguments in parentheses if there are any. A list of
annotations is cut apart at blanks, and what a piece has behind an opening parenthesis is dropped.
So each annotation gives its name, and for every blank in its arguments a further piece that is no
name.
-/
namespace Visualforce.Apex
open Pattern Cursor

variable {κ : Type} {before : Option Char} {rest : Text} {groups : List (κ × Span)}

theorem not_contains_iff {c : Char} : (!(")".toList.contains c)) = true ↔ c ≠ ')' := by
  simp

/-- An annotation as it is written: a name, arguments in parentheses if there are any, and the
blanks behind them. -/
structure AnnotationText where
  name : Text
  arguments : Option Text
  space : Text
  isName : name ≠ [] ∧ ∀ c ∈ name, Text.isWord c
  isClosed : ∀ inside ∈ arguments, ')' ∉ inside
  isSpace : space ≠ [] ∧ ∀ c ∈ space, Text.isBlank c

namespace AnnotationText

def mark (a : AnnotationText) : Text := '@' :: a.name

def argumentsSource (a : AnnotationText) : Text :=
  match a.arguments with
  | none => []
  | some inside => '(' :: (inside ++ [')'])

def source (a : AnnotationText) : Text := a.mark ++ (a.argumentsSource ++ a.space)

/-- The pieces of the arguments from the first blank in them on. -/
def torn (a : AnnotationText) : List Text :=
  (Text.words (a.argumentsSource.dropWhile (!Text.isBlank ·))).map (·.takeWhile (· != '('))

def listed (a : AnnotationText) : List Text := a.mark :: a.torn

variable (a : AnnotationText)

theorem isWord_of_mem_mark {c : Char} (hc : c ∈ a.mark) : c = '@' ∨ Text.isWord c := by
  rcases List.mem_cons.mp hc with rfl | hc
  · exact .inl rfl
  · exact .inr (a.isName.2 c hc)

theorem isBlank_of_mem_mark {c : Char} (hc : c ∈ a.mark) : Text.isBlank c = false := by
  rcases a.isWord_of_mem_mark hc with rfl | hc
  · decide
  · exact Text.isBlank_of_isWord hc

theorem not_mem_mark {c : Char} (hat : c ≠ '@') (hc : Text.isWord c = false) : c ∉ a.mark := by
  intro hmem
  rcases a.isWord_of_mem_mark hmem with hmem | hmem
  · exact hat hmem
  · rw [hc] at hmem
    cases hmem

theorem argumentsSource_cases : a.argumentsSource = [] ∨
    ∃ inside, a.argumentsSource = '(' :: (inside ++ [')']) ∧ ')' ∉ inside := by
  rw [argumentsSource]
  cases harguments : a.arguments with
  | none => exact .inl rfl
  | some inside => exact .inr ⟨inside, rfl, a.isClosed inside harguments⟩

/-- The words of an annotation are its mark with what is written behind it up to a blank, and the
words from there on. -/
theorem words_source_append (rest : Text) :
    (Text.words (a.source ++ rest)).map (·.takeWhile (· != '(')) =
    a.listed ++ (Text.words rest).map (·.takeWhile (· != '(')) := by
  obtain ⟨c, space, hspace⟩ := List.exists_cons_of_ne_nil a.isSpace.1
  obtain ⟨hc, hblank⟩ := List.forall_mem_cons.mp (hspace ▸ a.isSpace.2)
  have hwords : Text.words (a.mark ++ a.argumentsSource) =
      (a.mark ++ a.argumentsSource.takeWhile (!Text.isBlank ·)) ::
        Text.words (a.argumentsSource.dropWhile (!Text.isBlank ·)) := by
    have hmark : ∀ c ∈ a.mark, (!Text.isBlank c) = true :=
      fun c hc => by rw [a.isBlank_of_mem_mark hc]; rfl
    have hfront : (a.mark ++ a.argumentsSource).takeWhile (!Text.isBlank ·) =
        a.mark ++ a.argumentsSource.takeWhile (!Text.isBlank ·) :=
          List.takeWhile_append_of_pos hmark
    rw [Text.words_of_front (hfront ▸ List.cons_ne_nil _ _), hfront,
      List.dropWhile_append_of_pos hmark]
  have hcut : (a.mark ++ a.argumentsSource.takeWhile (!Text.isBlank ·)).takeWhile (· != '(') =
    a.mark := by
    have hmark : ∀ c ∈ a.mark, (c != '(') = true := fun c hc =>
      bne_iff_ne.mpr (ne_of_mem_of_not_mem hc (a.not_mem_mark (by decide) (by decide)))
    rw [List.takeWhile_append_of_pos hmark]
    rcases a.argumentsSource_cases with harguments | ⟨inside, harguments, -⟩
    · rw [harguments]
      exact List.append_nil _
    · rw [harguments]
      exact List.append_nil _
  rw [source, hspace, List.append_assoc, List.append_assoc, ← List.append_assoc a.mark,
    List.cons_append, Text.words_append_cons _ hc, hwords, Text.words_blank_append hblank,
    List.map_append, List.map_cons, hcut]
  rfl

theorem words_flatMap_source (annotations : List AnnotationText) :
    (Text.words (annotations.flatMap source)).map (·.takeWhile (· != '(')) =
      annotations.flatMap listed := by
  induction annotations with
  | nil => rfl
  | cons a annotations ih => rw [List.flatMap_cons, words_source_append, ih, List.flatMap_cons]

theorem torn_eq_nil_iff : a.torn = [] ↔ ∀ c ∈ a.argumentsSource, Text.isBlank c = false := by
  rw [torn, List.map_eq_nil_iff, Text.words_eq_nil_iff]
  constructor
  · intro h
    rcases a.argumentsSource_cases with harguments | ⟨inside, harguments, -⟩
    · rw [harguments]
      exact List.forall_mem_nil _
    · -- the closing parenthesis is behind every blank
      have hnone : a.argumentsSource.dropWhile (!Text.isBlank ·) = [] := by
        by_contra hne
        obtain ⟨passed, hpassed⟩ := List.dropWhile_suffix (!Text.isBlank ·) (l := a.argumentsSource)
        have hlast := congrArg List.getLast? hpassed
        rw [List.getLast?_append_of_ne_nil _ hne, harguments, ← List.cons_append,
          List.getLast?_concat] at hlast
        exact absurd (h ')' (harguments ▸ List.mem_of_getLast? hlast)) (by decide)
      rw [List.dropWhile_eq_nil_iff] at hnone
      exact fun c hc => by simpa using hnone c hc
  · intro h
    have hnone : a.argumentsSource.dropWhile (!Text.isBlank ·) = [] :=
      List.dropWhile_eq_nil_iff.mpr fun c hc => by rw [h c hc]; rfl
    rw [hnone]
    exact List.forall_mem_nil _

theorem length_le_flatMap_listed (annotations : List AnnotationText) :
    annotations.length ≤ (annotations.flatMap listed).length := by
  induction annotations with
  | nil => exact Nat.le_refl _
  | cons a annotations ih =>
    rw [List.flatMap_cons, List.length_append, listed, List.length_cons, List.length_cons]
    omega

/-- The list is the names just if no arguments hold a blank. -/
theorem flatMap_listed_eq_iff (annotations : List AnnotationText) :
    annotations.flatMap listed = annotations.map mark ↔
    ∀ a ∈ annotations, ∀ c ∈ a.argumentsSource, Text.isBlank c = false := by
  induction annotations with
  | nil => simp
  | cons a annotations ih =>
    rw [List.forall_mem_cons, ← torn_eq_nil_iff, ← ih, List.flatMap_cons, listed, List.map_cons,
      List.cons_append, List.cons_eq_cons, and_iff_right rfl]
    constructor
    · intro h
      have htorn : a.torn = [] := by
        have hlength := congrArg List.length h
        have hle := length_le_flatMap_listed annotations
        rw [List.length_append, List.length_map] at hlength
        exact List.length_eq_zero_iff.mp (by omega)
      rw [htorn, List.nil_append] at h
      exact ⟨htorn, h⟩
    · rintro ⟨htorn, h⟩
      rw [htorn, List.nil_append, h]

/-- An annotation is matched in one way. -/
theorem run_source (h : ∀ c ∈ rest.head?, Text.isBlank c = false) :
    ( annotation : Pattern κ).run ⟨between before (a.source ++ rest), groups⟩ some =
      some ⟨between (behind before a.source) rest, groups⟩ := by
  obtain ⟨d, space, hspace⟩ := List.exists_cons_of_ne_nil a.isSpace.1
  have hd : Text.isBlank d := a.isSpace.2 d (hspace ▸ List.mem_cons_self)
  have hblanks (before : Option Char) : (blanks : Pattern κ).run ⟨between before (a.space ++ rest),
    groups⟩ some =
      some ⟨between (behind before a.space) rest, groups⟩ :=
    run_plusOne_of_some a.isSpace.1 a.isSpace.2 h rfl
  simp only [ annotation, run_append, source, mark, char, List.cons_append, List.append_assoc,
    run_one_cons, beq_self_eq_true, if_true]
  rcases a.argumentsSource_cases with harguments | ⟨inside, harguments, hinside⟩
  · rw [harguments, List.nil_append]
    refine run_plusOne_of_some a.isName.1 a.isName.2 ?_ ?_
    · rw [hspace]
      rintro c ⟨⟩
      exact Text.isWord_of_isBlank hd
    · rw [run_maybe, hblanks, run_append, run_append, hspace, List.cons_append, run_one_cons,
        if_neg, Option.none_or]
      · simp only [List.nil_append, behind_cons, behind_append]
      · rw [beq_iff_eq]
        rintro rfl
        cases hd
  · rw [harguments, List.cons_append, List.append_assoc, List.singleton_append]
    refine run_plusOne_of_some a.isName.1 a.isName.2 ?_ ?_
    · rintro c ⟨⟩
      decide
    · have hopen : ∀ c ∈ inside, (!(")".toList.contains c)) = true := fun c hc =>
        not_contains_iff.mpr (ne_of_mem_of_not_mem hc hinside)
      have hclose : ∀ c ∈ (')' :: (a.space ++ rest)).head?, (!(")".toList.contains c)) = false := by
        rintro c ⟨⟩
        decide
      rw [run_maybe, run_append, run_append, run_one_cons, beq_self_eq_true, if_pos rfl, noneOf,
        run_starOne_of_some hopen hclose, Option.some_or]
      rw [run_one_cons, beq_self_eq_true, if_pos rfl, hblanks]
      simp only [behind_cons, behind_append, behind_nil]

/-- An annotation takes something. -/
theorem left_lt (before after : Option Char) (rest : Text) :
    (between after rest).left < (between before (a.source ++ rest)).left := by
  simp only [between_left, source, mark, List.length_append, List.length_cons]
  omega

theorem begins_annotation : Begins ( annotation : Pattern κ) (· == '@') :=
  (((Begins.one _).append _).append _).append _

theorem head?_flatMap_source {annotations : List AnnotationText} :
    ∀ c ∈ (annotations.flatMap source ++ rest).head?, c = '@' ∨ c ∈ rest.head? := by
  cases annotations with
  | nil => exact fun c hc => .inr hc
  | cons a annotations =>
    rintro c ⟨⟩
    exact .inl rfl

/-- Annotations are passed as a whole when what follows them is not begun by another one. -/
theorem run_flatMap_source {annotations : List AnnotationText} {goOn : Place κ → Option (Place κ)}
    (hrest : ∀ c ∈ rest.head?, Text.isBlank c = false ∧ c ≠ '@')
    (hrefuse : ∀ before more groups, goOn ⟨between before ('@' :: more), groups⟩ = none) :
    (star annotation).run ⟨between before (annotations.flatMap source ++ rest), groups⟩ goOn =
      goOn ⟨between (behind before (annotations.flatMap source)) rest, groups⟩ := by
  induction annotations generalizing before with
  | nil =>
    exact run_star_stop ( begins_annotation _ _ _ _ fun c hc =>
      beq_false_of_ne (hrest c hc).2)
  | cons a annotations ih =>
    have hnext : ∀ c ∈ (annotations.flatMap source ++ rest).head?, Text.isBlank c = false := by
      intro c hc
      rcases head?_flatMap_source c hc with rfl | hc
      · decide
      · exact (hrest c hc).1
    have hat : goOn ⟨between before (a.source ++ (annotations.flatMap source ++ rest)), groups⟩ =
      none := hrefuse before _ groups
    rw [List.flatMap_cons, List.append_assoc, run_star_step (a.run_source hnext) (a.left_lt _ _ _),
      hat, Option.or_none, ih, behind_append]

/-- Names are annotations without arguments, a space behind each of them. -/
theorem exists_annotations {names : List Text} (h : ∀ name ∈ names, IsIdentifier name) :
    ∃ annotations : List AnnotationText, annotations.flatMap source = annotationsSource names ∧
      annotations.flatMap listed = names.map ('@' :: ·) := by
  induction names with
  | nil => exact ⟨[], rfl, rfl⟩
  | cons name names ih =>
    obtain ⟨hname, hnames⟩ := List.forall_mem_cons.mp h
    obtain ⟨annotations, hsource, hlisted⟩ := ih hnames
    refine ⟨⟨name, none, [' '],
      ⟨hname.nonempty, fun c hc => Markup.isWord_of_isNamePart (hname.ascii c hc)⟩, nofun, by
      decide⟩ ::
      annotations, ?_, ?_⟩
    · rw [List.flatMap_cons, hsource]
      rfl
    · rw [List.flatMap_cons, hlisted]
      rfl

theorem exists_of_leads {here there : Place κ} (h : Leads annotation here there) :
    ∃ a : AnnotationText, here.cursor.rest = a.source ++ there.cursor.rest := by
  obtain ⟨_, h, hspace⟩ := leads_append.mp h
  obtain ⟨_, h, harguments⟩ := leads_append.mp h
  obtain ⟨_, hat, hname⟩ := leads_append.mp h
  obtain ⟨hat, -⟩ := hat.char_inv
  obtain ⟨name, hname, hname_ne, hword⟩ := hname.plusOne_inv
  obtain ⟨space, hspace, hspace_ne, hblank⟩ := hspace.plusOne_inv
  rcases leads_maybe.mp harguments with harguments | rfl
  · obtain ⟨_, h, hclose⟩ := leads_append.mp harguments
    obtain ⟨_, hopen, hinside⟩ := leads_append.mp h
    obtain ⟨hopen, -⟩ := hopen.char_inv
    obtain ⟨inside, hinside, hclosed, -⟩ := hinside.manyOne_inv
    obtain ⟨hclose, -⟩ := hclose.char_inv
    refine ⟨⟨name, some inside, space, ⟨hname_ne, hword⟩, ?_, ⟨hspace_ne, hblank⟩⟩, ?_⟩
    · rintro _ ⟨⟩ hmem
      exact not_contains_iff.mp (hclosed ')' hmem) rfl
    · rw [hat, hname, hopen, hinside, hclose, hspace]
      simp [source, mark, argumentsSource]
  · refine ⟨⟨name, none, space, ⟨hname_ne, hword⟩, ?_, ⟨hspace_ne, hblank⟩⟩, ?_⟩
    · rintro _ ⟨⟩
    · rw [hat, hname, hspace]
      simp [source, mark, argumentsSource]

/-- An annotation ends, blanks apart, with no blank, and not as a comment does. -/
theorem exists_last : ∃ body d, a.mark ++ a.argumentsSource = body ++ [d] ∧ Text.isBlank d = false ∧
    d ≠ '/' := by
  rcases a.argumentsSource_cases with harguments | ⟨inside, harguments, -⟩
  · obtain ⟨body, d, hname⟩ := List.eq_nil_or_concat a.name |>.resolve_left a.isName.1
    rw [List.concat_eq_append] at hname
    have hd : Text.isWord d := a.isName.2 d (hname ▸ by simp)
    refine ⟨'@' :: body, d, ?_, Text.isBlank_of_isWord hd, ?_⟩
    · rw [harguments, List.append_nil, mark, hname]
      rfl
    · rintro rfl
      exact absurd hd (by decide)
  · refine ⟨a.mark ++ '(' :: inside, ')', ?_, by decide, by decide⟩
    rw [harguments, List.append_assoc]
    rfl

end AnnotationText

end Visualforce.Apex
