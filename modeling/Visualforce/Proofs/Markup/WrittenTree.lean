import Visualforce.Proofs.Markup.Written

/-! # The tree of a written page

Neighbouring texts of a written page make one run of text. Forests are put together from the end, so
a forest is the run that it begins with and the nodes behind it.
-/
namespace Visualforce.Markup

/-- How the nodes of a forest are made: those of a run of text, and that of an element. -/
structure Maker (α : Type) where
  text : Text → List α
  element : Head → List α → α

structure Forest (α : Type) where
  front : Text
  nodes : List α

variable {α : Type}

def Forest.all (make : Maker α) (forest : Forest α) : List α :=
  make.text forest.front ++ forest.nodes

mutual
/-- Puts a part before a forest. -/
def Written.before (make : Maker α) : Written → Forest α → Forest α
  | .text content, forest => ⟨content ++ forest.front, forest.nodes⟩
  | .closed head, forest => ⟨[], make.element head [] :: forest.all make⟩
  | .element head children, forest =>
    ⟨[], make.element head ((forestOf make children).all make) :: forest.all make⟩

def forestOf (make : Maker α) : List Written → Forest α
  | [] => ⟨[], []⟩
  | part :: rest => part.before make (forestOf make rest)
end

/-- A run is a text of the tree without the blanks around it, and a blank run is nothing. -/
def treeMaker : Maker Node where
  text run := if Text.isBlankText run then [] else [.text (Text.trim run)]
  element := .element

/-- The nodes of the tree below an element with the given children. -/
def nodesOf (children : List Written) : List Node := (forestOf treeMaker children).all treeMaker

def Written.tree (page : Written) (head : Head) : Element := ⟨head, nodesOf page.children⟩

/-- An attribute as a tree keeps it. -/
def Attribute.trimmed (attr : Attribute) : Attribute := ⟨attr.name, Text.trim attr.value⟩

def Head.trimmed (head : Head) : Head := ⟨head.tag, head.attributes.map (·.trimmed)⟩

mutual
/-- A part with all its values trimmed; its texts are left as they are. -/
def Written.trimmed : Written → Written
  | .text content => .text content
  | .closed head => .closed head.trimmed
  | .element head children => .element head.trimmed (trimmedAll children)

def trimmedAll : List Written → List Written
  | [] => []
  | part :: rest => part.trimmed :: trimmedAll rest
end

theorem Head.trimmed_of_values {head : Head}
    (h : ∀ attr ∈ head.attributes, Text.IsTrimmed attr.value) :
    head.trimmed = head := by
  have hattributes : ∀ attr ∈ head.attributes, attr.trimmed = attr := fun attr hattr => by
    rw [Attribute.trimmed, show Text.trim attr.value = attr.value from h attr hattr]
  rw [Head.trimmed, List.map_congr_left hattributes, List.map_id']

mutual
theorem Written.trimmed_of_values : ∀ part : Written,
    (∀ head ∈ headsOf part.tokens, ∀ attr ∈ head.attributes, Text.IsTrimmed attr.value) →
    part.trimmed = part
  | .text _, _ => rfl
  | .closed head, h => by rw [Written.trimmed, Head.trimmed_of_values (h head List.mem_cons_self)]
  | .element head children, h => by
    rw [Written.tokens, headsOf_opening, headsOf_append, List.forall_mem_cons,
      List.forall_mem_append] at h
    rw [Written.trimmed, Head.trimmed_of_values h.1, trimmedAll_of_values children h.2.1]

theorem trimmedAll_of_values : ∀ parts : List Written,
    (∀ head ∈ headsOf (tokensOf parts), ∀ attr ∈ head.attributes, Text.IsTrimmed attr.value) →
      trimmedAll parts = parts
  | [], _ => rfl
  | part :: rest, h => by
    rw [tokensOf, headsOf_append, List.forall_mem_append] at h
    rw [trimmedAll, part.trimmed_of_values h.1, trimmedAll_of_values rest h.2]
end

theorem Written.children_trimmed (part : Written) :
    part.trimmed.children = trimmedAll part.children := by
  cases part <;> rfl

mutual
theorem Written.headsOf_trimmed : ∀ part : Written,
    headsOf part.trimmed.tokens = (headsOf part.tokens).map Head.trimmed
  | .text _ => rfl
  | .closed _ => rfl
  | .element head children => by
    rw [Written.trimmed, Written.tokens, headsOf_opening, headsOf_append,
      headsOf_trimmedAll children, Written.tokens, headsOf_opening, headsOf_append, List.map_cons,
      List.map_append]
    rfl

theorem headsOf_trimmedAll : ∀ parts : List Written,
    headsOf (tokensOf (trimmedAll parts)) = (headsOf (tokensOf parts)).map Head.trimmed
  | [] => rfl
  | part :: rest => by
    rw [trimmedAll, tokensOf, headsOf_append, part.headsOf_trimmed, headsOf_trimmedAll rest,
      tokensOf, headsOf_append, List.map_append]
end

/-- What closes a root that was opened. -/
def closingOf (head : Head) (closes : Bool) : List Token :=
  if closes then [] else [.closing head.tag]

/-- A page is its root tag, the tokens of its children and the end of the root. -/
theorem tokens_of_head? {page : Written} {head : Head} (h : page.head? = some head) : ∃ closes,
    page.tokens = .opening head closes :: (tokensOf page.children ++ closingOf head closes) ∧
      (closes = true → page.children = []) := by
  cases page with
  | text content => cases h
  | closed _ =>
    cases h
    exact ⟨true, rfl, fun _ => rfl⟩
  | element _ children =>
    cases h
    exact ⟨false, rfl, by simp⟩

/-- The last token of a page is a tag. -/
theorem exists_last_tag {page : Written} {head : Head} (h : page.head? = some head) :
    ∃ tokens last, page.tokens = tokens ++ [last] ∧ ∀ content, last ≠ .text content := by
  obtain ⟨closes, htokens, hclosed⟩ := tokens_of_head? h
  cases closes with
  | true => exact ⟨[], .opening head true, by rw [htokens, hclosed rfl]; rfl, nofun⟩
  | false =>
    exact ⟨.opening head false :: tokensOf page.children, .closing head.tag, htokens, nofun⟩

end Visualforce.Markup
