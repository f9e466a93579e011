import Visualforce.Proofs.Markup.Assignment
import Visualforce.Proofs.Page.Mentions
import Visualforce.Proofs.Page.PlainTree

/-! # Patterns for bindings at the tags of ordinary pages

The patterns for bindings match at the start tags of inputs and commands. From the tag they go over
its attributes to the one that binds, but not past a closing angle bracket, which may stand inside a
value.
-/
namespace Visualforce.Page
open Pattern Cursor Markup
open Expression (IsMarked mergeField isBraceless first?)

variable {before : Option Char} {rest : Text} {goOn : Place Unit → Option (Place Unit)}
variable {groups : List (Unit × Span)}

theorem any_isWord_behind {word : Text} (hne : word ≠ []) (hword : ∀ c ∈ word, isNamePart c)
    (before : Option Char) : (behind before word).any Text.isWord = true := by
  obtain ⟨front, c, rfl⟩ := (List.eq_nil_or_concat word).resolve_left hne
  rw [List.concat_eq_append] at hword ⊢
  rw [behind_concat]
  exact isWord_of_isNamePart (hword c (by simp))

theorem run_wordEdge_end (hbefore : before.any Text.isWord = true) (hrest : EndsName rest) :
    (wordEdge : Pattern Unit).run ⟨between before rest, groups⟩ goOn =
    goOn ⟨between before rest, groups⟩ := by
  rw [run_wordEdge, hbefore, hrest.isWord_head?]
  rfl

theorem run_wordEdge_inside {c : Char} (hbefore : before.any Text.isWord = true)
    (hc : isNamePart c) :
    (wordEdge : Pattern Unit).run ⟨between before (c :: rest), groups⟩ goOn = none := by
  rw [run_wordEdge, hbefore, List.head?_cons, Option.any_some, isWord_of_isNamePart hc]
  rfl

theorem run_wordChars (hbefore : before.any Text.isWord = true) {more : Text}
    (hmore : ∀ c ∈ more, isNamePart c)
    (hrest : EndsName rest) :
    (star wordChar ++ wordEdge).run ⟨between before (more ++ rest), groups⟩ goOn =
      goOn ⟨between (behind before more) rest, groups⟩ := by
  rw [run_append]
  induction more generalizing before with
  | nil =>
    refine (run_star_stop (run_one_of_head? ?_)).trans (run_wordEdge_end hbefore hrest)
    exact hrest.head? (by decide)
  | cons c more ih =>
    obtain ⟨hc, hmore⟩ := List.forall_mem_cons.mp hmore
    have hitem : wordChar.run ⟨between before (c :: (more ++ rest)), groups⟩ some =
        some ⟨between (some c) (more ++ rest), groups⟩ := by
      simp [wordChar, isWord_of_isNamePart hc]
    rw [List.cons_append, run_star_step hitem (by simp), run_wordEdge_inside hbefore hc,
      Option.or_none]
    exact ih (isWord_of_isNamePart hc) hmore

section Word
variable {word name : Text} (hne : word ≠ []) (hword : ∀ c ∈ word, isNamePart c)
    (hname : ∀ c ∈ name, isNamePart c)
  (hrest : EndsName rest)
include hword hrest

theorem not_isPrefix_name (h : ¬ word <+: name) : ¬ word <+: name ++ rest := by
  rintro ⟨left, hleft⟩
  obtain ⟨more, hmore, -⟩ | ⟨more, hmore, hrest'⟩ := List.append_eq_append_iff.mp hleft
  · exact h ⟨more, hmore.symm⟩
  · cases more with
    | nil => exact h ⟨[], by simpa using hmore⟩
    | cons c more =>
      have hc := hword c (by rw [hmore]; simp)
      have hend := hrest.head? (by decide : ∀ c ∈ [' ', '/', '>'], isNamePart c = false) c
        (by rw [hrest']; rfl)
      rw [hc] at hend
      cases hend

include hne hname

/-- A tag pattern for the beginning of a name. -/
theorem run_word_of_isPrefix : (exactly word ++ (star wordChar ++ wordEdge)).run
    ⟨between before (name ++ rest), groups⟩ goOn =
      if word.isPrefixOf name then goOn ⟨between (behind before name) rest, groups⟩ else none := by
  by_cases hfront : word <+: name
  · rw [if_pos (List.isPrefixOf_iff_prefix.mpr hfront)]
    obtain ⟨more, rfl⟩ := hfront
    rw [List.append_assoc, run_append, run_exactly_append, behind_append]
    exact run_wordChars (any_isWord_behind hne hword before) (List.forall_mem_append.mp hname).2
      hrest
  · rw [if_neg (by rwa [List.isPrefixOf_iff_prefix]), run_append,
      run_exactly_of_not_isPrefix (not_isPrefix_name hword hrest hfront)]

/-- A tag pattern for a whole name. -/
theorem run_word_of_eq : (exactly word ++ wordEdge).run ⟨between before (name ++ rest), groups⟩
    goOn =
    if name = word then goOn ⟨between (behind before name) rest, groups⟩ else none := by
  have hbehind := any_isWord_behind hne hword
  by_cases hfront : word <+: name
  · obtain ⟨more, rfl⟩ := hfront
    rw [List.append_assoc, run_append, run_exactly_append]
    cases more with
    | nil =>
      rw [List.nil_append, List.append_nil, if_pos rfl]
      exact run_wordEdge_end (hbehind before) hrest
    | cons c more =>
      rw [List.cons_append, run_wordEdge_inside (hbehind before) (hname c (by simp)),
        if_neg (by simp)]
  · rw [run_append, run_exactly_of_not_isPrefix (not_isPrefix_name hword hrest hfront), if_neg]
    rintro rfl
    exact hfront (List.prefix_refl _)

end Word

/-- The pattern takes the names that suit, as a whole, and no others. -/
def TakesTag (tag : Pattern Unit) (suits : Text → Bool) : Prop :=
  ∀ (name rest : Text), (∀ c ∈ name, isNamePart c) → EndsName rest → ∀ before groups goOn,
    (tag ++ wordEdge).run ⟨between before (name ++ rest), groups⟩ goOn =
      if suits name then goOn ⟨between (behind before name) rest, groups⟩ else none

def inputTag : Pattern Unit := alt (literal "input") (literal "select") ++ star wordChar

def commandTag : Pattern Unit := literal "command" ++ alt (literal "Button") (literal "Link")

theorem takesTag_inputTag : TakesTag inputTag isInputName := by
  intro name rest hname hrest before groups goOn
  have hrun : ∀ word : Text, word ≠ [] → (∀ c ∈ word, isNamePart c) →
      (exactly word ++ (star wordChar ++ wordEdge)).run ⟨between before (name ++ rest), groups⟩
        goOn =
        if word.isPrefixOf name then goOn ⟨between (behind before name) rest, groups⟩ else none :=
    fun word hne hword => run_word_of_isPrefix hne hword hname hrest
  have hsplit : (inputTag ++ wordEdge).run ⟨between before (name ++ rest), groups⟩ goOn =
      ((exactly "input".toList ++ (star wordChar ++ wordEdge)).run ⟨between before (name ++ rest),
        groups⟩ goOn).or
        ((exactly "select".toList ++ (star wordChar ++ wordEdge)).run
          ⟨between before (name ++ rest), groups⟩ goOn) := by
    rw [inputTag, run_append, run_append, run_alt]
    rfl
  rw [hsplit, hrun _ (by decide) (by decide), hrun _ (by decide) (by decide), isInputName]
  cases "input".toList.isPrefixOf name <;> cases "select".toList.isPrefixOf name <;> simp

theorem takesTag_commandTag : TakesTag commandTag isCommandName := by
  intro name rest hname hrest before groups goOn
  have hrun : ∀ word : Text, word ≠ [] → (∀ c ∈ word, isNamePart c) →
      (exactly word ++ wordEdge).run ⟨between before (name ++ rest), groups⟩ goOn =
        if name = word then goOn ⟨between (behind before name) rest, groups⟩ else none :=
    fun word hne hword => run_word_of_eq hne hword hname hrest
  have hfactor : ∀ word : Text, (exactly ("command".toList ++ word) ++ wordEdge).run
      ⟨between before (name ++ rest), groups⟩ goOn =
        (literal "command").run ⟨between before (name ++ rest), groups⟩
        fun place => (exactly word).run place fun place => wordEdge.run place goOn := by
    intro word
    rw [run_append, run_exactly_concat, run_append]
    rfl
  have hsplit : (commandTag ++ wordEdge).run ⟨between before (name ++ rest), groups⟩ goOn =
      ((exactly "commandButton".toList ++ wordEdge).run ⟨between before (name ++ rest), groups⟩
        goOn).or
        ((exactly "commandLink".toList ++ wordEdge).run ⟨between before (name ++ rest), groups⟩
          goOn) := by
    rw [show "commandButton".toList = "command".toList ++ "Button".toList by decide,
      show "commandLink".toList = "command".toList ++ "Link".toList by
      decide, hfactor, hfactor, run_append, commandTag, run_append]
    by_cases hfront : "command".toList <+: name ++ rest
    · obtain ⟨left, hleft⟩ := hfront
      simp only [← hleft, literal, run_exactly_append, run_alt]
    · simp only [literal, run_exactly_of_not_isPrefix hfront, Option.or_none]
  rw [hsplit, hrun _ (by decide) (by decide), hrun _ (by decide) (by decide), isCommandName]
  simp only [Bool.or_eq_true, beq_iff_eq]
  split_ifs <;> simp_all

/-- The expression of a value after its opening quote, of either kind. -/
def quotedField : Pattern Unit :=
  alt (char '"' ++ starLazy (noneOf "\"")) (char '\'' ++ starLazy (noneOf "'")) ++ mergeField

def boundValue (name : String) : Pattern Unit :=
  wordEdge ++ literal name ++ (equalsSign ++ quotedField)

theorem run_boundExpression (tag : Pattern Unit) (name : String) (here : Place Unit)
    (goOn : Place Unit → Option (Place Unit)) : (boundExpression tag name).run here goOn =
      (char '<' ++ plus (one isComponentChar) ++ char ':' ++ (tag ++ wordEdge) ++
        (starLazy (noneOf ">") ++ boundValue name)).run here goOn := rfl

section BoundValue
variable {name : String} {attr : Attribute}

theorem run_boundValue (here : Place Unit) (goOn : Place Unit → Option (Place Unit)) :
    (boundValue name).run here goOn =
      (wordEdge ++ exactly name.toList ++ (equalsSign ++ quotedField)).run here goOn := rfl

theorem isAssignment_boundValue (hname : isWordName name.toList) : IsAssignment (boundValue name) :=
  isAssignment_of_word hname (isAssigner_equalsSign.append _) run_boundValue

/-- At an attribute of the name the match goes on inside the quotes. -/
theorem run_boundValue_of_name (hname : isWordName name.toList) (h : attr.name = name.toList) :
    (boundValue name).run ⟨between (some ' ') (attr.name ++ (attr.assigned ++ rest)), []⟩ some =
      (starLazy (noneOf "\"") ++ mergeField).run ⟨between (some '"') (attr.value ++ '"' :: rest),
        []⟩ some := by
  have hassigned : attr.assigned ++ rest = '=' :: '"' :: (attr.value ++ '"' :: rest) := by
    simp [Attribute.assigned]
  rw [h, run_word_of_name hname run_boundValue, hassigned, run_append, run_equalsSign (by decide),
    quotedField, run_append, run_alt]
  simp [char]

end BoundValue

/-- The match ends somewhere in the text before the rest and has taken the expression, or there is
none. -/
def Binds (result : Option (Place Unit)) (text rest : Text) : Option Text → Prop
  | none => result = none
  | some content => ∃ last after left, result = some last ∧
      last.cursor = between after (left ++ rest) ∧
      left <:+ text ∧ ∀ start, Text.trim ((⟨start, last.cursor, last.groups⟩ : Hit Unit).group ()) =
        content

theorem Binds.of_suffix {result : Option (Place Unit)} {text whole : Text} {found : Option Text}
    (h : Binds result text rest found) (hsuffix : text <:+ whole) :
    Binds result whole rest found := by
  cases found with
  | none => exact h
  | some content =>
    obtain ⟨last, after, left, hresult, hcursor, hleft, hcontent⟩ := h
    exact ⟨last, after, left, hresult, hcursor, hleft.trans hsuffix, hcontent⟩

theorem Binds.append {result : Option (Place Unit)} {text more rest : Text} {found : Option Text}
    (h : Binds result text (more ++ rest) found) : Binds result (text ++ more) rest found := by
  cases found with
  | none => exact h
  | some content =>
    obtain ⟨last, after, left, hresult, hcursor, ⟨taken, rfl⟩, hcontent⟩ := h
    exact ⟨last, after, left ++ more, hresult, by
      rw [hcursor, List.append_assoc], ⟨taken, by simp⟩, hcontent⟩

theorem ne_quote_of_mem {value : Text} (h : IsMarked isPlainValueChar value) {c : Char}
    (hc : c ∈ value) :
    (!"\"".toList.contains c) = true := by
  have hquote : '"' ∉ value := h.not_mem (by decide) (by decide)
  have hne : c ≠ '"' := fun heq => hquote (heq ▸ hc)
  simp [hne]

theorem quiet_braceless {text : Text} (h : ∀ c ∈ text, isBraceless c) (before : Option Char)
    (rest : Text) :
    Quiet mergeField before text rest :=
  Expression.begins_mergeField.quiet
    (fun c hc => beq_false_of_ne fun hbrace => absurd (hbrace ▸ h c hc) (by decide)) before rest

theorem binds_quoted {value : Text} (h : IsMarked isPlainValueChar value) (before : Option Char) :
    Binds ((starLazy (noneOf "\"") ++ mergeField).run ⟨between before (value ++ '"' :: rest), []⟩
      some)
      (value ++ ['"']) rest (first? value) := by
  have hquote : ∀ c ∈ value, (!"\"".toList.contains c) = true := fun c => ne_quote_of_mem h
  rcases (h.mono fun _ => isBraceless_of_isPlainValueChar).first_cases with ⟨hvalue, hnone⟩ |
    ⟨front, content, more, rfl, hfront, hbrace, hfilled, hsome⟩
  · rw [hnone]
    have hquiet : Quiet mergeField before (value ++ ['"']) rest :=
      quiet_braceless (List.forall_mem_append.mpr ⟨hvalue, by decide⟩) before rest
    exact hquiet.run_starLazyOne_none hquote (by decide)
  · obtain ⟨hit, hmatch, hstop, hgroup⟩ :=
      Expression.matchAt_mergeField (behind before front) (more ++ '"' :: rest) hbrace hfilled
    obtain ⟨last, hlast, rfl⟩ := Option.map_eq_some_iff.mp hmatch
    have hfield : ∀ c ∈ front, (!"\"".toList.contains c) = true :=
      fun c hc => hquote c (List.mem_append_left _ hc)
    have hpassed := (quiet_braceless hfront before
      ('{' :: '!' :: (content ++ '}' :: (more ++ '"' :: rest)))).run_starLazyOne hfield
    have hvalue : (front ++ '{' :: '!' :: (content ++ '}' :: more)) ++ '"' :: rest =
        front ++ '{' :: '!' :: (content ++ '}' :: (more ++ '"' :: rest)) := by simp
    rw [hsome, hvalue, noneOf, hpassed]
    refine ⟨last, some '}', more ++ ['"'], run_starLazy_here hlast, by
      simpa using hstop, ?_, fun _ => ?_⟩
    · refine ⟨front ++ '{' :: '!' :: (content ++ ['}']), by simp⟩
    · exact (congrArg Text.trim hgroup).trans (Text.isTrimmed_trim content)

/-- What stands behind an attribute begins no name before an equals sign. -/
theorem avoidsEquals_left {attributes : List Attribute}
    (hall : ∀ attr ∈ attributes, isWordName attr.name ∧ IsMarked isPlainValueChar attr.value)
    (closes : Bool)
    (rest : Text) :
    AvoidsEquals (attributes.flatMap Attribute.source ++ (tagEnd closes ++ rest)) := by
  cases attributes with
  | nil =>
    cases closes with
    | false => exact avoidsEquals_cons (by decide) (by decide) (by decide) rest
    | true => exact avoidsEquals_cons (by decide) (by decide) (by decide) _
  | cons attr attributes =>
    rw [List.flatMap_cons, List.append_assoc]
    exact Attribute.avoidsEquals_source
      (beginsName_of_isWordName (List.forall_mem_cons.mp hall).1.1) _

section Attributes
variable {name : String} (hname : isWordName name.toList)

def boundIn (name : Text) (attr : Attribute) : List Text :=
  if attr.name = name then (first? attr.value).toList else []

/-- The attributes up to the first with a closing angle bracket in its value. -/
def reached : List Attribute → List Attribute
  | [] => []
  | attr :: rest => if '>' ∈ attr.value then [attr] else attr :: reached rest

include hname

theorem binds_attribute {attr : Attribute} (hattr : isWordName attr.name)
    (hvalue : IsMarked isPlainValueChar attr.value) (rest : Text) :
    Binds ((boundValue name).run ⟨between (some ' ') (attr.name ++ (attr.assigned ++ rest)), []⟩
      some)
      attr.source rest (boundIn name.toList attr).head? := by
  rw [boundIn]
  split_ifs with heq
  · have hsuffix : attr.value ++ ['"'] <:+ attr.source :=
      ⟨' ' :: (attr.name ++ ['=', '"']), by simp [Attribute.source]⟩
    rw [run_boundValue_of_name hname heq]
    simpa using (binds_quoted hvalue (some '"')).of_suffix hsuffix
  · have hnone : (boundValue name).matchAt
      (between (some ' ') (attr.name ++ (attr.assigned ++ rest))) = none := by
      refine matchAt_word_of_ne hname (isAssigner_equalsSign.append quotedField) run_boundValue
        hattr heq ?_
      rintro c ⟨⟩
      decide
    exact Option.map_eq_none_iff.mp hnone

/-- An expression that is bound is taken. -/
theorem binds_bound {attr : Attribute} (hattr : isWordName attr.name)
    (hvalue : IsMarked isPlainValueChar attr.value)
    (before : Option Char) (rest : Text) {content : Text}
    (hbound : (boundIn name.toList attr).head? = some content) :
    Binds ((starLazy (noneOf ">") ++ boundValue name).run ⟨between before (attr.source ++ rest), []⟩
      some)
      attr.source rest (some content) := by
  have hahead := attr.afterName_source (beginsName_of_isWordName hattr) rest List.not_mem_nil
  rw [Attribute.source_eq, List.append_assoc, List.append_assoc] at hahead
  have hquiet : Quiet (boundValue name) before [' '] (attr.name ++ (attr.assigned ++ rest)) :=
    ⟨(isAssignment_boundValue hname).equals _ _ hahead, trivial⟩
  have hbinds := binds_attribute hname hattr hvalue rest
  rw [hbound] at hbinds
  obtain ⟨last, after, left, hlast, hcursor⟩ := hbinds
  refine ⟨last, after, left, ?_, hcursor⟩
  rw [Attribute.source_eq, List.append_assoc, List.append_assoc]
  exact (hquiet.run_starLazyOne (by decide)).trans (run_starLazy_here hlast)

/-- An attribute that binds nothing is passed, unless there is an angle bracket in its value. -/
theorem run_passing {attr : Attribute} (hattr : isWordName attr.name)
    (hvalue : IsMarked isPlainValueChar attr.value)
    (before : Option Char) {rest : Text} (hrest : AvoidsEquals rest)
    (hbound : boundIn name.toList attr = []) :
    (starLazy (noneOf ">") ++ boundValue name).run ⟨between before (attr.source ++ rest), []⟩ some =
      if '>' ∈ attr.value then none
      else (starLazy (noneOf ">") ++ boundValue name).run ⟨between (some '"') rest, []⟩ some := by
  have hbinds := binds_attribute hname hattr hvalue rest
  rw [hbound] at hbinds
  have hquiet := (isAssignment_boundValue hname).quiet_of_miss hattr
    (hvalue.not_mem (by decide) (by decide))
    before hrest (Option.map_eq_none_iff.mpr hbinds)
  have hbegin : ∀ c ∈ ' ' :: (attr.name ++ ['=', '"']), c ≠ '>' := by
    refine List.forall_mem_cons.mpr
      ⟨by decide, List.forall_mem_append.mpr ⟨fun c hc => ?_, by decide⟩⟩
    rintro rfl
    exact absurd (forall_mem_of_isWordName hattr _ hc) (by decide)
  have haccepts : ∀ {passed : Text}, (∀ c ∈ passed, c ≠ '>') →
    ∀ c ∈ passed, (!">".toList.contains c) = true :=
    fun h c hc => by simpa using h c hc
  split_ifs with hclose
  · obtain ⟨first, more, hsplit, hfirst⟩ := List.eq_append_cons_of_mem hclose
    have hsource : attr.source = (' ' :: (attr.name ++ ['=', '"']) ++ first) ++
      '>' :: (more ++ ['"']) := by
      simp [Attribute.source, hsplit]
    rw [hsource] at hquiet ⊢
    rw [List.append_assoc]
    exact hquiet.run_starLazyOne_none
      (haccepts (List.forall_mem_append.mpr ⟨hbegin, fun c hc h => hfirst (h ▸ hc)⟩)) (by decide)
  · have hsource : attr.source = ' ' :: (attr.name ++ ['=', '"']) ++ (attr.value ++ ['"']) := by
      simp [Attribute.source]
    have hbehind : behind before attr.source = some '"' := by
      rw [hsource, ← List.append_assoc, behind_concat]
    have hpassed : ∀ c ∈ attr.source, c ≠ '>' := by
      rw [hsource]
      refine List.forall_mem_append.mpr
        ⟨hbegin, List.forall_mem_append.mpr ⟨fun c hc h => hclose (h ▸ hc), by decide⟩⟩
    rw [← hbehind]
    exact hquiet.run_starLazyOne (haccepts hpassed)

/-- Nothing is bound after the attributes of a tag. -/
theorem run_bound_tagEnd (before : Option Char) (closes : Bool) (rest : Text) :
    (starLazy (noneOf ">") ++ boundValue name).run ⟨between before (tagEnd closes ++ rest), []⟩
      some = none := by
  have hat : ∀ {c : Char} (before : Option Char) (rest : Text), c ∈ ['/', '>'] →
      (boundValue name).run ⟨between before (c :: rest), []⟩ some = none := by
    intro c before rest hc
    refine Option.map_eq_none_iff.mp ((isAssignment_boundValue hname).equals before (c :: rest)
      fun heq => ?_)
    have hclass : ∀ d ∈ ['/', '>'], isTagNameChar d = false ∧ Text.isBlank d = false ∧ d ≠ '=' := by
      decide
    obtain ⟨htag, hblank, hne⟩ := hclass c hc
    simp [afterName, htag, hblank, hne] at heq
  have hclosed : ∀ before, (starLazy (noneOf ">") ++ boundValue name).run
    ⟨between before ('>' :: rest), []⟩ some =
      none := fun before => run_starLazy_stop (hat before rest (by decide : '>' ∈ ['/', '>']))
        (by simp [noneOf])
  cases closes with
  | false => exact hclosed before
  | true =>
    have hslash : (noneOf ">").run ⟨between before ('/' :: '>' :: rest), []⟩ some =
        some ⟨between (some '/') ('>' :: rest), ([] : List (Unit × Span))⟩ := by simp [noneOf]
    have hnone := hat before ('>' :: rest) (by decide : '/' ∈ ['/', '>'])
    exact (run_starLazy_step hnone hslash (by simp)).trans (hclosed (some '/'))

/-- Of the attributes that are reached the first that binds is taken. -/
theorem binds_attributes {attributes : List Attribute}
    (hall : ∀ attr ∈ attributes, isWordName attr.name ∧ IsMarked isPlainValueChar attr.value)
    (before : Option Char) (closes : Bool) (rest : Text) :
    Binds ((starLazy (noneOf ">") ++ boundValue name).run
        ⟨between before (attributes.flatMap Attribute.source ++ (tagEnd closes ++ rest)), []⟩ some)
      (attributes.flatMap Attribute.source) (tagEnd closes ++ rest)
      ((reached attributes).flatMap (boundIn name.toList)).head? := by
  induction attributes generalizing before with
  | nil => exact run_bound_tagEnd hname before closes rest
  | cons attr attributes ih =>
    obtain ⟨⟨hattr, hvalue⟩, hall⟩ := List.forall_mem_cons.mp hall
    have hreached : (reached (attr :: attributes)).flatMap (boundIn name.toList) =
      boundIn name.toList attr ++
        if '>' ∈ attr.value then [] else (reached attributes).flatMap (boundIn name.toList) := by
      rw [reached]
      split_ifs <;> rfl
    rw [hreached, List.head?_append, List.flatMap_cons, List.append_assoc]
    cases hhead : (boundIn name.toList attr).head? with
    | some content => exact (binds_bound hname hattr hvalue before _ hhead).append
    | none =>
      rw [run_passing hname hattr hvalue before (avoidsEquals_left hall closes rest)
        (List.head?_eq_none_iff.mp hhead)]
      split_ifs with hclose
      · rfl
      · exact (ih hall (some '"')).of_suffix (List.suffix_append _ _)

end Attributes

section Tokens
variable {tag : Pattern Unit} {name : String} {suits : Text → Bool} {token : Token}
    {tokens : List Token}

/-- What a start tag binds in the attributes that are reached. -/
def boundAt (name : Text) (suits : Text → Bool) : Token → List Text
  | .opening head _ => ((reached head.attributes).flatMap (firstIn name suits head)).head?.toList
  | _ => []

theorem begins_boundExpression : Begins (boundExpression tag name) (· == '<') :=
  ((((((((((Begins.one _).append _).append _).append _).append _).append _).append _).append
    _).append _).append
    _).append _

theorem run_boundExpression_closing (name : String) (text : Text) :
    (boundExpression tag name).run ⟨between before ('<' :: '/' :: text), groups⟩ goOn = none := by
  rw [run_boundExpression]
  simp only [run_append, char, run_one_cons, beq_self_eq_true, if_true, plus]
  rfl

/-- A colon ends the qualifier of a tag, and nothing else does. -/
theorem run_boundExpression_name {first : Text} (hfirst : isWordName first) (name : String)
    {text : Text}
    (htext : ∀ c ∈ text.head?, isComponentChar c = false) :
    (boundExpression tag name).run ⟨between before ('<' :: (first ++ text)), groups⟩ goOn =
      (char ':').run ⟨between (behind (some '<') first) text, groups⟩ fun place =>
        (tag ++ wordEdge).run place
        fun place => (starLazy (noneOf ">") ++ boundValue name).run place goOn := by
  have hne : first ≠ [] := by
    rintro rfl
    cases hfirst
  rw [run_boundExpression]
  simp only [run_append, char, run_one_cons, beq_self_eq_true, if_true]
  refine run_plusOne hne
    (fun c hc => isComponentChar_of_isNamePart (forall_mem_of_isWordName hfirst c hc)) htext ?_
  intro before c rest hc
  refine run_one_of_head? ?_
  rintro d ⟨⟩
  exact beq_false_of_ne fun h => absurd (h ▸ hc) (by decide)

theorem binds_opening (htag : TakesTag tag suits) (hname : isWordName name.toList) {head : Head}
    (h : head.IsOrdinary)
    (closes : Bool) (before : Option Char) (rest : Text) :
    Binds ((boundExpression tag name).run
      ⟨between before ((Token.opening head closes).source ++ rest), []⟩ some)
      head.attributeSource (tagEnd closes ++ rest)
      ((reached head.attributes).flatMap (firstIn name.toList suits head)).head? := by
  let left := head.attributeSource ++ (tagEnd closes ++ rest)
  have hleft : EndsName left := endsName_attributeSource head (endsName_tagEnd closes rest)
  have hsource : (Token.opening head closes).source ++ rest = '<' :: (head.tag ++ left) := by
    simp [Token.source, left]
  have hall : ∀ attr ∈ head.attributes, isWordName attr.name ∧
    IsMarked isPlainValueChar attr.value :=
    fun attr hattr => ⟨(h.names attr hattr).1, h.values attr hattr⟩
  have hattributes := binds_attributes hname hall
  generalize hwritten : head.tag = written at hsource
  have hwhole := h.tag
  rw [hwritten] at hwhole
  rw [hsource]
  cases hwhole with
  | simple hword =>
    have hnone : firstIn name.toList suits head = fun _ => [] := by
      funext attr
      rw [firstIn, Head.isNamespaced_of_simple (hwritten ▸ hword)]
      rfl
    rw [hnone, List.flatMap_eq_nil_iff.mpr fun _ _ => rfl, run_boundExpression_name hword name
      (hleft.head? (by decide))]
    exact run_one_of_head? (hleft.head? (by decide))
  | @qualified qualifier base hqualifier _ hbase =>
    obtain ⟨-, hbaseName, hnamespaced⟩ := Head.parts_of_qualified hqualifier hbase hwritten
    rw [List.append_assoc, List.cons_append, run_boundExpression_name hqualifier name
      (by rintro c ⟨⟩; decide), char, run_one_cons, if_pos (by decide), htag base left
        (forall_mem_of_isWordName hbase) hleft]
    split_ifs with hsuits
    · have hbound : firstIn name.toList suits head = boundIn name.toList := by
        funext attr
        simp [firstIn, boundIn, hnamespaced, hbaseName, hsuits]
      rw [hbound]
      exact hattributes _ closes rest
    · have hnone : firstIn name.toList suits head = fun _ => [] := by
        funext attr
        simp [firstIn, hbaseName, hsuits]
      rw [hnone, List.flatMap_eq_nil_iff.mpr fun _ _ => rfl]
      rfl

theorem yields_boundExpression (htag : TakesTag tag suits) (hname : isWordName name.toList)
    (h : token.IsOrdinary) :
    Yields (boundExpression tag name) (seen fun hit => Text.trim (hit.group ()))
      anything token.source
      (boundAt name.toList suits token) := by
  have hclear := h.isClear
  cases token with
  | text content => exact (misses_text content hclear).yields begins_boundExpression hclear
  | closing tag =>
    refine Misses.yields (fun more hsource before rest groups goOn => ?_) begins_boundExpression
      hclear
    obtain ⟨-, rfl⟩ := List.cons_eq_cons.mp hsource
    exact run_boundExpression_closing name _
  | opening head closes =>
    have hbinds := binds_opening htag hname h closes
    rw [boundAt]
    cases hbound : ((reached head.attributes).flatMap (firstIn name.toList suits head)).head? with
    | none =>
      rw [hbound] at hbinds
      refine .of_quiet (fun _ _ => trivial) fun before rest _ => ?_
      obtain ⟨more, hsource, hmore⟩ : ∃ more, (Token.opening head closes).source = '<' :: more ∧
        '<' ∉ more := by
        rcases hclear.source_cases with hfree | hmore
        · exact absurd List.mem_cons_self hfree
        · exact hmore
      rw [hsource] at hbinds ⊢
      exact ⟨Option.map_eq_none_iff.mpr (hbinds before rest),
        quiet_of_not_mem begins_boundExpression hmore _ rest⟩
    | some content =>
      rw [hbound] at hbinds
      refine yields_of_hit begins_boundExpression hclear fun before rest => ?_
      obtain ⟨last, after, left, hlast, hcursor, ⟨taken, htaken⟩, hcontent⟩ := hbinds before rest
      refine ⟨_, after, head.tag ++ taken, left ++ tagEnd closes, ?_, by
        rw [matchAt, hlast]; rfl, ?_, hcontent _⟩
      · rw [Token.source, ← htaken]
        simp
      · rw [hcursor, List.append_assoc]

/-- What a pattern for bindings takes from an ordinary page, in document order. -/
theorem findAll_boundExpression_sourceOf (htag : TakesTag tag suits)
    (hname : isWordName name.toList)
    (h : ∀ token ∈ tokens, token.IsOrdinary) :
    ((boundExpression tag name).findAll () (sourceOf tokens)).map Text.trim =
      tokens.flatMap (boundAt name.toList suits) := by
  rw [findAll, List.map_map]
  exact hits_sourceOf fun token htoken => yields_boundExpression htag hname (h token htoken)

end Tokens

end Visualforce.Page
