import Visualforce.Page.Extract
import Visualforce.Proofs.Markup.OrdinaryBuild
import Visualforce.Proofs.Page.RecoverySteps
import Visualforce.Proofs.Page.TagBindings

/-! # Bindings in ordinary pages

What the inputs and commands of a page are bound to can be read from its tree or recovered from its
text. A recovery takes the first expression of the same attributes, except where an attribute before
them has a closing angle bracket in its value.
-/
namespace Visualforce.Page
open Pattern Markup
open Expression (IsMarked isBraceless first?)

variable {name : Text} {suits : Text → Bool} {head : Head} {page : Written} {tokens : List Token}

/-- No attribute before one that binds has a closing angle bracket in its value. -/
def BindsInReach (name : Text) (suits : Text → Bool) (head : Head) : Prop :=
  ∀ earlier attr later, head.attributes = earlier ++ attr :: later → firstIn name suits head attr ≠
    [] →
    ∀ other ∈ earlier, '>' ∉ other.value

theorem exists_unreached (attributes : List Attribute) : ∃ left, attributes = reached attributes ++
    left ∧
    (left ≠ [] → ∃ attr ∈ reached attributes, '>' ∈ attr.value) := by
  induction attributes with
  | nil => exact ⟨[], rfl, fun h => absurd rfl h⟩
  | cons attr attributes ih =>
    rw [reached]
    split_ifs with hclose
    · exact ⟨attributes, rfl, fun _ => ⟨attr, by simp, hclose⟩⟩
    · obtain ⟨left, hleft, hreached⟩ := ih
      refine ⟨left, by rw [List.cons_append, ← hleft], fun hne => ?_⟩
      obtain ⟨other, hother, hclose⟩ := hreached hne
      exact ⟨other, List.mem_cons_of_mem _ hother, hclose⟩

theorem reached_prefix {earlier : List Attribute} (later : List Attribute)
    (h : ∃ other ∈ earlier, '>' ∈ other.value) : reached (earlier ++ later) <+: earlier := by
  induction earlier with
  | nil => simp at h
  | cons attr earlier ih =>
    rw [List.cons_append, reached]
    split_ifs with hclose
    · exact ⟨earlier, rfl⟩
    · refine List.prefix_cons_inj attr |>.mpr (ih ?_)
      simpa [hclose] using h

theorem flatMap_reached_iff : (reached head.attributes).flatMap (firstIn name suits head) =
    head.attributes.flatMap (firstIn name suits head) ↔ BindsInReach name suits head := by
  obtain ⟨left, hleft, hreached⟩ := exists_unreached head.attributes
  have hiff : (reached head.attributes).flatMap (firstIn name suits head) =
      head.attributes.flatMap (firstIn name suits head) ↔
        ∀ attr ∈ left, firstIn name suits head attr = [] := by
    conv_lhs => rhs; rw [hleft]
    rw [List.flatMap_append, List.self_eq_append_right, List.flatMap_eq_nil_iff]
  rw [hiff]
  constructor
  · intro hunbound earlier attr later hattributes hbinds other hother hclose
    have hbegins := reached_prefix (attr :: later) ⟨other, hother, hclose⟩
    rw [← hattributes] at hbegins
    obtain ⟨between, hearlier⟩ := hbegins
    have hsame : reached head.attributes ++ left = reached head.attributes ++
      (between ++ attr :: later) :=
      hleft.symm.trans (by rw [← List.append_assoc, hearlier, ← hattributes])
    rw [List.append_cancel_left_eq] at hsame
    exact hbinds (hunbound attr (by rw [hsame]; simp))
  · intro hreach attr hattr
    obtain ⟨earlier, later, rfl⟩ := List.append_of_mem hattr
    obtain ⟨other, hother, hclose⟩ := hreached (by simp)
    by_contra hbinds
    exact hreach (reached head.attributes ++ earlier) attr later (by simpa using hleft) hbinds other
      (List.mem_append_left _ hother) hclose

/-- An ordinary head binds at most once, because its attributes have different names. -/
theorem length_flatMap_firstIn {attributes : List Attribute} (h : (attributes.map (·.name)).Nodup) :
    (attributes.flatMap (firstIn name suits head)).length ≤ 1 := by
  induction attributes with
  | nil => simp
  | cons attr attributes ih =>
    obtain ⟨hfresh, hdistinct⟩ := List.nodup_cons.mp h
    rw [List.flatMap_cons, List.length_append]
    by_cases hname : attr.name = name
    · have hothers : attributes.flatMap (firstIn name suits head) = [] := by
        refine List.flatMap_eq_nil_iff.mpr fun other hother => ?_
        have hne : other.name ≠ name :=
          fun heq => hfresh (List.mem_map.mpr ⟨other, hother, heq.trans hname.symm⟩)
        simp [firstIn, hne]
      rw [hothers, firstIn]
      split_ifs
      · cases first? attr.value <;> simp
      · simp
    · have hnone : firstIn name suits head attr = [] := by simp [firstIn, hname]
      rw [hnone]
      simpa using ih hdistinct

theorem toList_head? {α : Type} {values : List α} (h : values.length ≤ 1) :
    values.head?.toList = values := by
  match values, h with
  | [], _ => rfl
  | [value], _ => rfl

/-- What is recovered at a start tag is bound there. -/
theorem flatMap_boundAt (h : ∀ token ∈ tokens, token.IsOrdinary) :
    tokens.flatMap (boundAt name suits) =
    (headsOf tokens).flatMap fun head => (reached head.attributes).flatMap
      (firstIn name suits head) := by
  induction tokens with
  | nil => rfl
  | cons token tokens ih =>
    obtain ⟨htoken, htokens⟩ := List.forall_mem_cons.mp h
    rw [List.flatMap_cons, ih htokens]
    cases token with
    | text content => rfl
    | closing tag => rfl
    | opening head closes =>
      have hhead : head.IsOrdinary := htoken
      obtain ⟨left, hleft, -⟩ := exists_unreached head.attributes
      have honce : ((reached head.attributes).flatMap (firstIn name suits head)).length ≤ 1 := by
        have hall : (head.attributes.flatMap (firstIn name suits head)).length ≤ 1 :=
          length_flatMap_firstIn hhead.distinct
        rw [hleft, List.flatMap_append, List.length_append] at hall
        exact le_trans (Nat.le_add_right _ _) hall
      rw [headsOf_opening, List.flatMap_cons, boundAt, toList_head? honce]

/-- Trimming the values of a head keeps what they bind. -/
theorem flatMap_firstIn_trimmed (h : head.IsOrdinary) :
    head.trimmed.attributes.flatMap (firstIn name suits head.trimmed) =
      head.attributes.flatMap (firstIn name suits head) := by
  rw [Head.trimmed, List.flatMap_map]
  refine List.flatMap_congr fun attr hattr => ?_
  have hmarked : IsMarked isBraceless attr.value :=
    (h.values attr hattr).mono fun _ => isBraceless_of_isPlainValueChar
  have hfirst : first? (Text.trim attr.value) = first? attr.value := by
    rw [first?, hmarked.find_trim.2, first?]
  simp only [firstIn, Attribute.trimmed, hfirst]
  rfl

theorem headsIn_trimmed (h : page.IsOrdinary) (hhead : page.head? = some head) :
    headsIn (page.trimmed.tree head.trimmed) = (headsOf page.tokens).map Head.trimmed := by
  obtain ⟨closes, htokens, -⟩ := tokens_of_head? hhead
  have hclosing : headsOf (closingOf head closes) = [] := by cases closes <;> rfl
  have hchildren : AreOrdinary page.children := by
    cases page with
    | text content => cases hhead
    | closed head => trivial
    | element head children => exact h.2
  have hbelow : (page.trimmed.tree head.trimmed).below.map (·.head) =
    headsOf (tokensOf page.trimmed.children) :=
    below_ordinaryTree (page.children_trimmed ▸ hchildren.trimmed)
  rw [headsIn, hbelow, page.children_trimmed, headsOf_trimmedAll, htokens, headsOf_opening,
    headsOf_append, hclosing, List.append_nil, List.map_cons]
  rfl

/-- What is bound at the start tags of a page, in document order. -/
def boundOn (name : Text) (suits : Text → Bool) (page : Written) : List Text :=
  (headsOf page.tokens).flatMap fun head => head.attributes.flatMap (firstIn name suits head)

/-- What of it a recovery reaches. -/
def reachedOn (name : Text) (suits : Text → Bool) (page : Written) : List Text :=
  (headsOf page.tokens).flatMap fun head => (reached head.attributes).flatMap
    (firstIn name suits head)

theorem flatMap_firstIn_headsIn (h : page.IsOrdinary) (hhead : page.head? = some head) :
    ((headsIn (page.trimmed.tree head.trimmed)).flatMap fun head =>
      head.attributes.flatMap (firstIn name suits head)) = boundOn name suits page := by
  rw [headsIn_trimmed h hhead, List.flatMap_map, boundOn]
  have hheads : ∀ head ∈ headsOf page.tokens, head.IsOrdinary :=
    forall_mem_headsOf fun _ _ htoken => h.tokens _ htoken
  exact List.flatMap_congr fun head hhead => flatMap_firstIn_trimmed (hheads head hhead)

theorem readTree_bindings (h : page.IsOrdinaryPage) : ∃ read, readTree Config.standard page.source =
    .ok read ∧
    read.inputBindings = boundOn "value".toList isInputName page ∧
    read.buttonActions = boundOn "action".toList isCommandName page := by
  obtain ⟨head, hhead, -⟩ := h.root
  obtain ⟨read, hread⟩ := ofTree_ok (by decide : HasPreviewLimits Config.standard)
    (page.trimmed.tree head.trimmed)
  have hinputs := ofTree_binds (·.inputBindings) bind_inputBindings (fun _ _ _ => rfl)
    (fun _ _ _ _ _ _ _ => rfl) hread
  have hactions := ofTree_binds (·.buttonActions) bind_buttonActions (fun _ _ _ => rfl)
    (fun _ _ _ _ _ _ _ => rfl) hread
  rw [flatMap_firstIn_headsIn h.parts hhead] at hinputs hactions
  refine ⟨read, ?_, hinputs, hactions⟩
  rw [readTree, build_ordinary h hhead]
  simp only [hread]

theorem recover_bindings_source (h : page.IsOrdinaryPage) :
    (recover Config.standard page.source).inputBindings =
      reachedOn "value".toList isInputName page ∧
      (recover Config.standard page.source).buttonActions = reachedOn "action".toList isCommandName
        page := by
  have hordinary : ∀ token ∈ page.tokens, token.IsOrdinary := h.parts.tokens
  have hvisible : visible Config.standard page.source = page.source :=
    visible_sourceOf fun token htoken =>
      ⟨(hordinary token htoken).isClear, (hordinary token htoken).isTransparent⟩
  obtain ⟨hinputs, hactions⟩ := recover_bindings Config.standard page.source
  rw [hvisible] at hinputs hactions
  have hfound : ∀ (tag : Pattern Unit) (name : String) (suits : Text → Bool), TakesTag tag suits →
    isWordName name.toList →
      ((boundExpression tag name).findAll () page.source).map Text.trim =
        reachedOn name.toList suits page :=
    fun tag name suits htag hname => (findAll_boundExpression_sourceOf htag hname hordinary).trans
      (flatMap_boundAt hordinary)
  exact ⟨hinputs.trans (hfound inputTag "value" isInputName takesTag_inputTag (by decide)),
    hactions.trans (hfound commandTag "action" isCommandName takesTag_commandTag (by decide))⟩

theorem length_flatMap_le {α β : Type} {few all : α → List β} (h : ∀ a, few a <+: all a)
    (values : List α) :
    (values.flatMap few).length ≤ (values.flatMap all).length := by
  induction values with
  | nil => simp
  | cons a values ih =>
    rw [List.flatMap_cons, List.flatMap_cons, List.length_append, List.length_append]
    exact Nat.add_le_add (h a).length_le ih

theorem flatMap_eq_iff {α β : Type} {few all : α → List β} {values : List α}
    (h : ∀ a, few a <+: all a) :
    values.flatMap few = values.flatMap all ↔ ∀ a ∈ values, few a = all a := by
  refine ⟨fun heq => ?_, List.flatMap_congr⟩
  induction values with
  | nil => simp
  | cons a values ih =>
    rw [List.flatMap_cons, List.flatMap_cons] at heq
    have hrest := length_flatMap_le h values
    have hlength := congrArg List.length heq
    rw [List.length_append, List.length_append] at hlength
    have hsame : (few a).length = (all a).length := by
      have hle := (h a).length_le
      omega
    obtain ⟨hhere, hthere⟩ := List.append_inj heq hsame
    exact List.forall_mem_cons.mpr ⟨hhere, ih hthere⟩

theorem reachedOn_eq_iff : reachedOn name suits page = boundOn name suits page ↔
    ∀ head ∈ headsOf page.tokens, BindsInReach name suits head := by
  rw [reachedOn, boundOn, flatMap_eq_iff]
  · exact forall₂_congr fun head _ => flatMap_reached_iff
  · intro head
    obtain ⟨left, hleft, -⟩ := exists_unreached head.attributes
    conv_rhs => rw [hleft]
    rw [List.flatMap_append]
    exact List.prefix_append _ _

/-- The bindings of an ordinary page are recovered from its text as they are read from its tree, in
order and with repetitions, just if no start tag has a closing angle bracket in a value before the
attribute that binds. The actions of commands are recovered under the same condition. -/
theorem bindings_agree_iff (h : page.IsOrdinaryPage) :
    ∃ read, readTree Config.standard page.source = .ok read ∧
      ((recover Config.standard page.source).inputBindings = read.inputBindings ↔
        ∀ head ∈ headsOf page.tokens, BindsInReach "value".toList isInputName head) ∧
      ((recover Config.standard page.source).buttonActions = read.buttonActions ↔
        ∀ head ∈ headsOf page.tokens, BindsInReach "action".toList isCommandName head) := by
  obtain ⟨read, hread, hinputs, hactions⟩ := readTree_bindings h
  obtain ⟨hinputs', hactions'⟩ := recover_bindings_source h
  refine ⟨read, hread, ?_, ?_⟩
  · rw [hinputs, hinputs', reachedOn_eq_iff]
  · rw [hactions, hactions', reachedOn_eq_iff]

def countAttribute : Attribute := ⟨"value".toList, "\x7b!count\x7d".toList⟩

def conditionAttribute : Attribute := ⟨"rendered".toList, "\x7b!count > 0\x7d".toList⟩

/-- A page with an input that is bound in front of an angle bracket, and a link with one before its
action. -/
def counterPage : Written :=
  .element ⟨pageRoot, []⟩ [.closed ⟨"apex:inputField".toList, [countAttribute, conditionAttribute]⟩,
    .closed ⟨"apex:commandLink".toList, [⟨"action".toList, "> \x7b!save\x7d".toList⟩]⟩]

/-- The same input with the condition in front of the binding. -/
def hiddenPage : Written :=
  .element ⟨pageRoot, []⟩ [.closed ⟨"apex:inputField".toList, [conditionAttribute, countAttribute]⟩]

section Examples

theorem isOrdinaryTag_apex {name : Text} (hname : isWordName name) :
    IsOrdinaryTag ("apex:".toList ++ name) := by
  have htag : "apex:".toList ++ name = "apex".toList ++ ':' :: name := rfl
  rw [htag]
  exact .qualified (by decide) (by decide) hname

theorem isMarked_around {front content : Text} (hfront : ∀ c ∈ front, isPlainValueChar c)
    (hcontent : ∀ c ∈ content, isPlainValueChar c) (hfilled : Text.isBlankText content = false) :
    IsMarked isPlainValueChar (front ++ '{' :: '!' :: (content ++ ['}'])) :=
  (IsMarked.of_all hfront).append (.field hcontent hfilled .nil)

theorem isMarked_count : IsMarked isPlainValueChar countAttribute.value :=
  isMarked_around (by decide : ∀ c ∈ [], isPlainValueChar c)
    (by decide : ∀ c ∈ "count".toList, isPlainValueChar c)
    (by decide)

theorem isMarked_condition : IsMarked isPlainValueChar conditionAttribute.value :=
  isMarked_around (by decide : ∀ c ∈ [], isPlainValueChar c)
    (by decide : ∀ c ∈ "count > 0".toList, isPlainValueChar c)
    (by decide)

theorem isOrdinary_root : Head.IsOrdinary ⟨pageRoot, []⟩ :=
  ⟨isOrdinaryTag_apex (by decide : isWordName "page".toList), by decide, by simp, by simp, by simp⟩

theorem counterPage_isOrdinaryPage : counterPage.IsOrdinaryPage := by
  refine ⟨⟨_, rfl, rfl⟩, ⟨isOrdinary_root, ?_, ?_, trivial⟩, by decide⟩
  · refine ⟨isOrdinaryTag_apex (by decide : isWordName "inputField".toList), by decide, by
      decide, by decide, ?_⟩
    exact List.forall_mem_cons.mpr
      ⟨isMarked_count, List.forall_mem_singleton.mpr isMarked_condition⟩
  · refine ⟨isOrdinaryTag_apex (by decide : isWordName "commandLink".toList), by decide, by
      decide, by decide, ?_⟩
    exact List.forall_mem_singleton.mpr
      (isMarked_around (by decide : ∀ c ∈ "> ".toList, isPlainValueChar c)
      (by decide : ∀ c ∈ "save".toList, isPlainValueChar c) (by decide))

theorem hiddenPage_isOrdinaryPage : hiddenPage.IsOrdinaryPage := by
  refine ⟨⟨_, rfl, rfl⟩, ⟨isOrdinary_root, ?_, trivial⟩, by decide⟩
  refine ⟨isOrdinaryTag_apex (by decide : isWordName "inputField".toList), by decide, by decide, by
    decide, ?_⟩
  exact List.forall_mem_cons.mpr ⟨isMarked_condition, List.forall_mem_singleton.mpr isMarked_count⟩

end Examples

theorem bindings_counterPage : counterPage.IsOrdinaryPage ∧
    ∃ read, readTree Config.standard counterPage.source = .ok read ∧
      (recover Config.standard counterPage.source).inputBindings = read.inputBindings ∧
      (recover Config.standard counterPage.source).buttonActions = read.buttonActions ∧
      read.inputBindings = ["count".toList] ∧ read.buttonActions = ["save".toList] := by
  have hinputs : ∀ head ∈ headsOf counterPage.tokens, BindsInReach "value".toList isInputName
    head :=
    fun head hhead => flatMap_reached_iff.mp
      ((by decide +kernel : ∀ head ∈ headsOf counterPage.tokens, (reached
        head.attributes).flatMap (firstIn "value".toList isInputName head) =
        head.attributes.flatMap (firstIn "value".toList isInputName head)) head hhead)
  have hactions : ∀ head ∈ headsOf counterPage.tokens, BindsInReach "action".toList isCommandName
    head :=
    fun head hhead => flatMap_reached_iff.mp
      ((by decide +kernel : ∀ head ∈ headsOf counterPage.tokens, (reached
        head.attributes).flatMap (firstIn "action".toList isCommandName head) =
        head.attributes.flatMap (firstIn "action".toList isCommandName head)) head hhead)
  obtain ⟨read, hread, hinput, haction⟩ := bindings_agree_iff counterPage_isOrdinaryPage
  refine ⟨counterPage_isOrdinaryPage, read, hread, hinput.mpr hinputs, haction.mpr hactions, ?_, ?_⟩
  · rw [← hinput.mpr hinputs]
    decide +kernel
  · rw [← haction.mpr hactions]
    decide +kernel

/-- The condition hides the binding of the input. -/
theorem bindings_hiddenPage : hiddenPage.IsOrdinaryPage ∧
    (readTree Config.standard hiddenPage.source).toOption.map (·.inputBindings) =
      some ["count".toList] ∧
    (recover Config.standard hiddenPage.source).inputBindings = [] :=
  ⟨hiddenPage_isOrdinaryPage, by decide +kernel, by decide +kernel⟩

end Visualforce.Page
