import Visualforce.Proofs.Xml.AcceptedElement

/-! # Documents that are accepted

A document that is read without a fault writes its start tags in the one way in which texts do, and
its elements are those that the tags open. Comments, sections and instructions cover what is in
them, and what is left has no bracket.
-/
namespace Visualforce.Xml
open Markup (LooseTag LooseAttribute Writes Cover sectionOpening sectionClosing)

variable {entities : Entities} {opening text rest : Text} {fuel : Nat}

mutual
/-- The names and attributes of the elements, each one before those inside of it. -/
def Node.heads : Node → List (Name × List (Name × Text))
  | .text _ => []
  | .element name attributes children => (name, attributes) :: Node.headsOfList children

def Node.headsOfList : List Node → List (Name × List (Name × Text))
  | [] => []
  | node :: rest => node.heads ++ Node.headsOfList rest
end

def Element.heads (element : Element) : List (Name × List (Name × Text)) := element.toNode.heads

def Frame.heads (frame : Frame) : List (Name × List (Name × Text)) :=
  frame.opened.head :: Node.headsOfList frame.children.reverse

/-- The heads that have been read when these frames are open. -/
def headsOfFrames (outer : List Frame) (frame : Frame) : List (Name × List (Name × Text)) :=
  outer.reverse.flatMap Frame.heads ++ frame.heads

theorem headsOfList_append (first second : List Node) :
    Node.headsOfList (first ++ second) = Node.headsOfList first ++ Node.headsOfList second := by
  induction first with
  | nil => rfl
  | cons node first ih =>
    rw [List.cons_append, Node.headsOfList, ih, Node.headsOfList,
      List.append_assoc]

@[simp] theorem Frame.heads_flush (frame : Frame) (run : Text) :
    (frame.flush run).heads = frame.heads := by
  rw [flush]
  split_ifs
  · rfl
  · simp [heads, headsOfList_append, Node.headsOfList, Node.heads]

@[simp] theorem Frame.heads_add (frame : Frame) (element : Element) :
    (frame.add element).heads = frame.heads ++ element.heads := by
  simp [add, heads, headsOfList_append, Node.headsOfList, Element.heads]

@[simp] theorem Frame.heads_close (frame : Frame) : frame.close.heads = frame.heads := rfl

@[simp] theorem Frame.opened_flush (frame : Frame) (run : Text) :
    (frame.flush run).opened = frame.opened := by
  rw [flush]
  split_ifs <;> rfl

@[simp] theorem Frame.opened_add (frame : Frame) (element : Element) :
    (frame.add element).opened = frame.opened := rfl

theorem headsOfFrames_add (outer : List Frame) (parent : Frame) (element : Element) :
    headsOfFrames outer (parent.add element) = headsOfFrames outer parent ++ element.heads := by
  simp [headsOfFrames]

theorem headsOfFrames_cons (outer : List Frame) (parent frame : Frame) :
    headsOfFrames (parent :: outer) frame = headsOfFrames outer parent ++ frame.heads := by
  simp [headsOfFrames]

theorem comment_eq_ok (h : comment opening text = .ok rest) :
    ∃ body, text = body ++ (Cover.comment.closing ++ rest) ∧ Cover.comment.Holds body := by
  induction text using comment.induct with
  | case1 left =>
    cases h
    exact ⟨[], rfl, Cover.holds_nil⟩
  | case2 left hclosing =>
    rw [comment] at h
    · exact absurd h (refuse_ne_ok _ _ _)
    · exact hclosing
  | case3 => exact absurd h (fail_ne_ok _ _ _)
  | case4 c left hclosing hmark hlegal ih =>
    rw [comment, if_pos hlegal] at h
    · obtain ⟨body, rfl, hbody⟩ := ih h
      refine ⟨c :: body, rfl, Cover.holds_cons_of_not_isPrefix rest ?_ hbody⟩
      rintro ⟨more, hmore⟩
      have hmore : '-' :: '-' :: more = c :: (body ++ (Cover.comment.closing ++ rest)) := hmore
      obtain ⟨rfl, hleft⟩ := List.cons_eq_cons.mp hmore
      exact hmark more rfl hleft.symm
    · exact hclosing
    · exact hmark
  | case5 c left hclosing hmark hlegal =>
    rw [comment, if_neg hlegal] at h
    · exact absurd h (fail_ne_ok _ _ _)
    · exact hclosing
    · exact hmark

theorem sectionContent_eq_ok {run content : Text}
    (h : sectionContent run text = .ok (content, rest)) :
    ∃ body, text = body ++ (Cover.verbatim.closing ++ rest) ∧ Cover.verbatim.Holds body := by
  have hstep : ∀ {c : Char} {left : Text}, (∀ more, c = ']' → left = ']' :: '>' :: more → False) →
      (∃ body, left = body ++ (Cover.verbatim.closing ++ rest) ∧ Cover.verbatim.Holds body) →
        ∃ body, c :: left = body ++ (Cover.verbatim.closing ++ rest) ∧
          Cover.verbatim.Holds body := by
    rintro c _ hclosing ⟨body, rfl, hbody⟩
    refine ⟨c :: body, rfl, Cover.holds_cons_of_not_isPrefix rest ?_ hbody⟩
    rintro ⟨more, hmore⟩
    have hmore : ']' :: ']' :: '>' :: more = c :: (body ++ (Cover.verbatim.closing ++ rest)) :=
      hmore
    obtain ⟨rfl, hleft⟩ := List.cons_eq_cons.mp hmore
    exact hclosing more rfl hleft.symm
  induction run, text using sectionContent.induct with
  | case1 run left =>
    cases h
    exact ⟨[], rfl, Cover.holds_nil⟩
  | case2 run left ih =>
    rw [sectionContent] at h
    exact hstep (by simp) (hstep (by simp) (ih h))
  | case3 => exact absurd h (fail_ne_ok _ _ _)
  | case4 => exact absurd h (fail_ne_ok _ _ _)
  | case5 => exact absurd h (fail_ne_ok _ _ _)
  | case6 run c left hclosing hreturn hone htwo hlegal ih =>
    rw [sectionContent, if_pos hlegal] at h
    · exact hstep hclosing (ih h)
    all_goals assumption
  | case7 run c left hclosing hreturn hone htwo hlegal =>
    rw [sectionContent, if_neg hlegal] at h
    · exact absurd h (fail_ne_ok _ _ _)
    all_goals assumption

theorem sectionStart_eq_ok (h : sectionStart opening text = .ok rest) :
    text = "CDATA[".toList ++ rest := by
  have hdiffer : ∀ {expected text : Text}, sectionStart.differ opening expected text = .ok rest →
    text = expected ++ rest := by
    intro expected
    induction expected with
    | nil =>
      intro text h
      cases h
      rfl
    | cons c expected ih =>
      intro text h
      cases text with
      | nil => exact absurd h (fail_ne_ok _ _ _)
      | cons d text =>
        rw [sectionStart.differ] at h
        split_ifs at h with hc
        · rw [ih h, beq_iff_eq.mp hc]
          rfl
        · exact absurd h (fail_ne_ok _ _ _)
  rw [sectionStart] at h
  split_ifs at h
  · exact absurd h (fail_ne_ok _ _ _)
  · exact hdiffer h

theorem instructionBody_eq_ok {taken content : Text}
    (h : instructionBody opening taken text = .ok (content, rest)) :
    ∃ body, text = body ++ (Cover.instruction.closing ++ rest) ∧ Cover.instruction.Holds body := by
  induction taken, text using instructionBody.induct with
  | case1 taken left =>
    cases h
    exact ⟨[], rfl, Cover.holds_nil⟩
  | case2 => exact absurd h (fail_ne_ok _ _ _)
  | case3 taken c left hclosing hlegal ih =>
    rw [instructionBody, if_pos hlegal] at h
    · obtain ⟨body, rfl, hbody⟩ := ih h
      refine ⟨c :: body, rfl, Cover.holds_cons_of_not_isPrefix rest ?_ hbody⟩
      rintro ⟨more, hmore⟩
      have hmore : '?' :: '>' :: more = c :: (body ++ (Cover.instruction.closing ++ rest)) := hmore
      obtain ⟨rfl, hleft⟩ := List.cons_eq_cons.mp hmore
      exact hclosing more rfl hleft.symm
    · exact hclosing
  | case4 taken c left hclosing hlegal =>
    rw [instructionBody, if_neg hlegal] at h
    · exact absurd h (fail_ne_ok _ _ _)
    · exact hclosing

theorem instruction_eq_ok {found : Mark} (h : instruction opening text = .ok (found, rest)) :
    (∃ body, text = body ++ (Cover.instruction.closing ++ rest) ∧ Cover.instruction.Holds body) ∧
      (found = .instruction ∨ ∃ body, found = .xmlDeclaration body) := by
  rw [instruction, bind_eq_ok] at h
  obtain ⟨⟨target, left⟩, htarget, h⟩ := h
  obtain ⟨rfl, hname, -⟩ := simpleName_eq_ok htarget
  dsimp only at h
  split at h
  · exact absurd h (fail_ne_ok _ _ _)
  · split at h
    · exact absurd h (fail_ne_ok _ _ _)
    · split at h
      · exact absurd h (fail_ne_ok _ _ _)
      · split at h
        · exact absurd h (refuse_ne_ok _ _ _)
        · rw [bind_eq_ok] at h
          obtain ⟨⟨content, left⟩, hbody, h⟩ := h
          obtain ⟨body, hleft, hholds⟩ := instructionBody_eq_ok hbody
          cases h
          rw [hleft]
          refine ⟨⟨target ++ body, by rw [List.append_assoc], hholds.append_of_not_mem ?_⟩, ?_⟩
          · rintro _ ⟨⟩
            exact not_mem_of_isNameRun hname (by decide)
          · split_ifs
            · exact .inr ⟨_, rfl⟩
            · exact .inl rfl

theorem endTag_eq_ok {name : WrittenName} (h : endTag name opening text = .ok rest) :
    ∃ passed, text = passed ++ rest ∧ '<' ∉ passed := by
  rw [endTag] at h
  split at h
  · exact absurd h (refuse_ne_ok _ _ _)
  · split at h
    · rename_i left hleft
      split_ifs at h
      · cases h
        let isPart (c : Char) := isNameChar c || c == ':'
        obtain ⟨spaces, hspaces, -, hnone⟩ := exists_spaces (text.dropWhile isPart)
        have hname : '<' ∉ text.takeWhile isPart :=
          fun hmem => absurd (List.mem_takeWhile_imp hmem) (by decide)
        refine ⟨text.takeWhile isPart ++ (spaces ++ ['>']), ?_, by simp [hname, hnone]⟩
        rw [List.append_assoc, List.append_assoc, List.singleton_append, ← hleft, ← hspaces,
          List.takeWhile_append_dropWhile]
      · exact absurd h (fail_ne_ok _ _ _)
    · exact absurd h (refuse_ne_ok _ _ _)

/-- The text writes tags that open elements with these heads, in the scopes of the open frames. -/
def ReadsHeads (frames : List Frame) (text rest : Text) (heads : List (Name × List (Name × Text))) :
    Prop :=
  ∃ tags, Writes text tags rest ∧
    ∀ declared, (∀ frame ∈ frames, frame.opened.scope.ComesFrom declared) →
    (∀ tag ∈ tags, tag.declared ⊆ declared) → List.Forall₂ (Opens declared) tags heads

namespace ReadsHeads

variable {frames others : List Frame} {left : Text} {heads : List (Name × List (Name × Text))}

theorem done (frames : List Frame) (rest : Text) : ReadsHeads frames rest rest [] :=
  ⟨[], .done rest, fun _ _ _ => .nil⟩

theorem pass (h : ReadsHeads frames left rest heads)
    (hpass : ∀ tags, Writes left tags rest → Writes text tags rest) :
    ReadsHeads frames text rest heads := by
  obtain ⟨tags, hwrites, hopens⟩ := h
  exact ⟨tags, hpass tags hwrites, hopens⟩

theorem mono (h : ReadsHeads frames text rest heads)
    (hframes : ∀ frame ∈ frames, ∃ other ∈ others, frame.opened.scope = other.opened.scope) :
    ReadsHeads others text rest heads := by
  obtain ⟨tags, hwrites, hopens⟩ := h
  refine ⟨tags, hwrites, fun declared hothers => hopens declared fun frame hframe => ?_⟩
  obtain ⟨other, hother, heq⟩ := hframes frame hframe
  exact heq ▸ hothers other hother

theorem openTag {read : StartTag} {opened : Opened} {frame : Frame} {place : Text}
    (htag : startTag place text = .ok (read, left))
    (hopened : openElement entities frame.opened.scope place read = .ok opened)
    (h : ReadsHeads (⟨opened, []⟩ :: frame :: frames) left rest heads) :
    ReadsHeads (frame :: frames) ('<' :: text) rest (opened.head :: heads) := by
  obtain ⟨tag, hsource, hread⟩ := startTag_eq_ok htag
  obtain ⟨tags, hwrites, hopens⟩ := h
  refine ⟨tag :: tags, hsource ▸ .opening hread.written hwrites, fun declared hframes htags => ?_⟩
  obtain ⟨hdeclared, hothers⟩ := List.forall_mem_cons.mp htags
  obtain ⟨hscope, hopen⟩ :=
    openElement_eq_ok hread hopened declared (hframes frame List.mem_cons_self) hdeclared
  exact .cons hopen (hopens declared (List.forall_mem_cons.mpr ⟨hscope, hframes⟩) hothers)

end ReadsHeads

theorem content_eq_ok {outer : List Frame} {frame : Frame} {run : Text} {root : Element}
    (h : content entities fuel outer frame run text = .ok (root, rest)) : ∃ heads,
      root.heads = headsOfFrames outer frame ++ heads ∧
      ReadsHeads (frame :: outer) text rest heads := by
  induction fuel generalizing outer frame run text with
  | zero => exact absurd h (fail_ne_ok _ _ _)
  | succ fuel ih =>
    have hpass : ∀ {left run : Text}, content entities fuel outer frame run left =
      .ok (root, rest) →
        (∀ tags, Writes left tags rest → Writes text tags rest) → ∃ heads,
          root.heads = headsOfFrames outer frame ++ heads ∧
          ReadsHeads (frame :: outer) text rest heads := by
      intro left run h hwrites
      obtain ⟨heads, hheads, hreads⟩ := ih h
      exact ⟨heads, hheads, hreads.pass hwrites⟩
    rw [content.eq_def] at h
    dsimp only at h
    split at h
    · exact absurd h (fail_ne_ok _ _ _)
    · -- an end tag
      rw [bind_eq_ok] at h
      obtain ⟨left, hend, h⟩ := h
      obtain ⟨passed, rfl, hpassed⟩ := endTag_eq_ok hend
      have hwrites : ∀ tags, Writes left tags rest → Writes ('<' :: '/' :: (passed ++ left))
        tags rest :=
        fun _ hleft => .closing (hleft.chars hpassed)
      split at h
      · cases h
        exact ⟨[], by simp [headsOfFrames], (ReadsHeads.done _ _).pass hwrites⟩
      · rename_i parent outer
        obtain ⟨heads, hheads, hreads⟩ := ih h
        refine ⟨heads, ?_, (hreads.mono ?_).pass hwrites⟩
        · rw [hheads, headsOfFrames_add, headsOfFrames_cons, Frame.heads_close, Frame.heads_flush]
        · refine List.forall_mem_cons.mpr ⟨⟨parent, by simp, rfl⟩, fun other hother =>
            ⟨other, by simp [hother], rfl⟩⟩
    · -- a comment
      rw [bind_eq_ok] at h
      obtain ⟨left, hcomment, h⟩ := h
      obtain ⟨body, rfl, hbody⟩ := comment_eq_ok hcomment
      exact hpass h fun _ hleft => .covered .comment hbody hleft
    · exact absurd h (refuse_ne_ok _ _ _)
    · -- a section
      rw [bind_eq_ok] at h
      obtain ⟨inside, hstart, h⟩ := h
      rw [bind_eq_ok] at h
      obtain ⟨⟨more, left⟩, hcontent, h⟩ := h
      obtain rfl := sectionStart_eq_ok hstart
      obtain ⟨body, rfl, hbody⟩ := sectionContent_eq_ok hcontent
      exact hpass h fun _ hleft => .covered .verbatim hbody hleft
    · exact absurd h (refuse_ne_ok _ _ _)
    · -- an instruction
      rw [bind_eq_ok] at h
      obtain ⟨⟨found, left⟩, hinstruction, h⟩ := h
      obtain ⟨⟨body, rfl, hbody⟩, -⟩ := instruction_eq_ok hinstruction
      split at h
      · exact absurd h (fail_ne_ok _ _ _)
      · rename_i heq
        cases heq
        exact hpass h fun _ hleft => .covered .instruction hbody hleft
    · -- a start tag
      rw [bind_eq_ok] at h
      obtain ⟨⟨read, left⟩, htag, h⟩ := h
      rw [bind_eq_ok] at h
      obtain ⟨opened, hopened, h⟩ := h
      dsimp only at h
      split_ifs at h
      · obtain ⟨heads, hheads, hreads⟩ := ih h
        refine ⟨opened.head :: heads, ?_, .openTag htag hopened (hreads.mono ?_)⟩
        · rw [hheads, headsOfFrames_add, headsOfFrames, Frame.heads_flush]
          simp [headsOfFrames, Frame.heads, Node.headsOfList]
        · refine List.forall_mem_cons.mpr ⟨⟨frame, by simp, by simp⟩, fun other hother =>
            ⟨other, by simp [hother], rfl⟩⟩
      · obtain ⟨heads, hheads, hreads⟩ := ih h
        refine ⟨opened.head :: heads, ?_, .openTag htag hopened (hreads.mono ?_)⟩
        · rw [hheads, headsOfFrames_cons, headsOfFrames, Frame.heads_flush]
          simp [headsOfFrames, Frame.heads, Node.headsOfList]
        · refine List.forall_mem_cons.mpr ⟨⟨⟨opened, []⟩, by simp, rfl⟩, List.forall_mem_cons.mpr
            ⟨⟨frame, by simp, by simp⟩, fun other hother => ⟨other, by simp [hother], rfl⟩⟩⟩
    · -- a reference
      rw [bind_eq_ok] at h
      obtain ⟨⟨ref, left⟩, href, h⟩ := h
      obtain ⟨passed, rfl, hpassed⟩ := reference_eq_ok href
      have hnone : '<' ∉ passed :=
        fun hmem => (hpassed '<' hmem).elim (fun hchar => absurd hchar (by decide)) (by decide)
      have hwrites : ∀ tags, Writes left tags rest → Writes ('&' :: (passed ++ left)) tags rest :=
        fun _ hleft => .char (by decide) (hleft.chars hnone)
      dsimp only at h
      split at h
      · exact hpass h hwrites
      · exact absurd h (fail_ne_ok _ _ _)
      · split at h
        · exact hpass h hwrites
        · split_ifs at h
          · exact absurd h (fail_ne_ok _ _ _)
          · exact absurd h (fail_ne_ok _ _ _)
    · exact absurd h (fail_ne_ok _ _ _)
    · exact hpass h fun _ hleft => .char (by decide) (.char (by decide) hleft)
    · -- any other character
      rename_i c left _ _ _ _ _ _ htag _ _ _
      split at h
      · exact hpass h fun _ hleft => .char htag hleft
      · exact absurd h (fail_ne_ok _ _ _)

/-- Marks that stand before or after the root element and are passed over. -/
def Mark.isPassed : Mark → Bool
  | .space | .comment | .instruction | .xmlDeclaration _ => true
  | _ => false

/-- Marks that only a document type holds. -/
def Mark.isInner (found : Mark) : Prop :=
  found.isPassed = false ∧ found ≠ .element ∧ ∀ keyword, found ≠ .declaration keyword

theorem nameToken_eq_ok {kind : TokenKind} {taken : Text} {found : Mark}
    (h : nameToken opening kind taken text = .ok (found, rest)) :
    found.isInner ∧ rest <:+ text := by
  have hending : ∀ kind taken, (nameToken.ending kind taken).isInner := by
    intro kind taken
    cases kind <;> exact ⟨rfl, nofun, nofun⟩
  induction text generalizing kind taken with
  | nil =>
    cases h
    exact ⟨hending kind taken, List.suffix_refl _⟩
  | cons c text ih =>
    have hbehind {kind : TokenKind} {taken : Text}
        (h : nameToken opening kind taken text = .ok (found, rest)) :
        found.isInner ∧ rest <:+ c :: text :=
      ⟨(ih h).1, (ih h).2.trans (List.suffix_cons _ _)⟩
    rw [nameToken.eq_def] at h
    dsimp only at h
    split_ifs at h
    · exact hbehind h
    · split at h
      · split at h
        · exact absurd h (fail_ne_ok _ _ _)
        · exact hbehind h
      · exact hbehind h
    · cases h
      exact ⟨hending kind taken, List.suffix_refl _⟩
    · split at h
      · exact absurd h (fail_ne_ok _ _ _)
      · cases h
        exact ⟨⟨rfl, nofun, nofun⟩, List.suffix_cons _ _⟩
    · exact absurd h (fail_ne_ok _ _ _)

theorem literal_eq_ok {quote : Char} {taken : Text} {found : Mark}
    (h : literal opening quote taken text = .ok (found, rest)) :
    found.isInner ∧ rest <:+ text := by
  induction text generalizing taken with
  | nil => exact absurd h (fail_ne_ok _ _ _)
  | cons c text ih =>
    rw [literal.eq_def] at h
    dsimp only at h
    split_ifs at h
    · exact absurd h (fail_ne_ok _ _ _)
    · split at h
      · cases h
        exact ⟨⟨rfl, nofun, nofun⟩, List.nil_suffix⟩
      · split_ifs at h
        · cases h
          exact ⟨⟨rfl, nofun, nofun⟩, List.suffix_cons _ _⟩
        · exact absurd h (fail_ne_ok _ _ _)
    · exact ⟨(ih h).1, (ih h).2.trans (List.suffix_cons _ _)⟩

theorem percent_eq_ok {found : Mark} (h : percent opening text = .ok (found, rest)) :
    found.isInner ∧ rest <:+ text := by
  rw [percent.eq_def] at h
  split at h
  · exact absurd h (fail_ne_ok _ _ _)
  · split_ifs at h
    · cases h
      exact ⟨⟨rfl, nofun, nofun⟩, List.suffix_refl _⟩
    · rw [bind_eq_ok] at h
      obtain ⟨⟨name, left⟩, hname, h⟩ := h
      dsimp only at h
      split at h
      · cases h
        have hleft : ';' :: rest <:+ _ := ⟨name, (simpleName_eq_ok hname).1.symm⟩
        exact ⟨⟨rfl, nofun, nofun⟩, (List.suffix_cons _ _).trans hleft⟩
      · exact absurd h (refuse_ne_ok _ _ _)

theorem pound_eq_ok {found : Mark} (h : pound opening text = .ok (found, rest)) :
    found.isInner ∧ rest <:+ text := by
  rw [pound, bind_eq_ok] at h
  obtain ⟨⟨name, left⟩, hname, h⟩ := h
  dsimp only at h
  split at h
  · cases h
    exact ⟨⟨rfl, nofun, nofun⟩, List.nil_suffix⟩
  · split_ifs at h
    · cases h
      exact ⟨⟨rfl, nofun, nofun⟩, name, (simpleName_eq_ok hname).1.symm⟩
    · exact absurd h (fail_ne_ok _ _ _)

def Marks (found : Mark) (text rest : Text) : Prop :=
  found.isInner ∨
    (found.isPassed ∧ (∃ passed, passed ≠ [] ∧ text = passed ++ rest) ∧
      ∀ left tags, Writes rest tags left → Writes text tags left) ∨
    (found = .element ∧ ∃ more, text = '<' :: more) ∨
    ∃ keyword, found = .declaration keyword ∧ '<' ∉ keyword ∧
      text = '<' :: '!' :: (keyword ++ rest) ∧
      ¬ "--".toList <+: keyword ++ rest ∧ ¬ "[CDATA[".toList <+: keyword ++ rest

theorem Marks.covered {cover : Cover} {found : Mark} {inside body : Text} (hfound : found.isPassed)
    (htext : text = cover.opening ++ inside) (hinside : inside = body ++ (cover.closing ++ rest))
    (hbody : cover.Holds body) :
    Marks found text rest := by
  subst htext hinside
  have hne : cover.opening ≠ [] := by cases cover <;> decide
  exact .inr (.inl ⟨hfound, ⟨cover.opening ++ (body ++ cover.closing), by simp [hne], by simp⟩,
    fun _ _ hrest => .covered cover hbody hrest⟩)

theorem marks_exclamation {found : Mark} (h : exclamation opening text = .ok (found, rest)) :
    Marks found ('<' :: '!' :: text) rest := by
  have hinner : Mark.isInner .other := ⟨rfl, nofun, nofun⟩
  rw [exclamation.eq_def] at h
  split at h
  · rw [bind_eq_ok] at h
    obtain ⟨left, hcomment, h⟩ := h
    cases h
    obtain ⟨body, hleft, hbody⟩ := comment_eq_ok hcomment
    exact Marks.covered rfl (show _ = Cover.comment.opening ++ _ from rfl) hleft hbody
  · exact absurd h (refuse_ne_ok _ _ _)
  · cases h
    exact .inl hinner
  · rename_i hcomment hdash hsection
    have hkeyword : '<' ∉ text.takeWhile isKeywordChar :=
      fun hmem => absurd (List.mem_takeWhile_imp hmem) (by decide)
    have hdeclares : ∀ {left : Text}, text.dropWhile isKeywordChar = left →
        Marks (.declaration (text.takeWhile isKeywordChar)) ('<' :: '!' :: text) left := by
      rintro _ rfl
      refine .inr (.inr (.inr ⟨_, rfl, hkeyword, ?_⟩))
      rw [List.takeWhile_append_dropWhile]
      refine ⟨rfl, ?_, ?_⟩
      · rintro ⟨more, hmore⟩
        exact hcomment more hmore.symm
      · rintro ⟨more, hmore⟩
        exact hsection _ hmore.symm
    split at h
    · exact absurd h (refuse_ne_ok _ _ _)
    · exact absurd h (fail_ne_ok _ _ _)
    · rename_i hdrop _
      split at h
      · cases h
        exact hdeclares hdrop
      · split at h
        · split at h
          · exact absurd h (fail_ne_ok _ _ _)
          · split at h
            · exact absurd h (fail_ne_ok _ _ _)
            · cases h
              exact hdeclares hdrop
        · exact absurd h (fail_ne_ok _ _ _)

theorem mark_eq_ok {found : Mark} (h : mark text = .ok (found, rest)) : Marks found text rest := by
  have hinner : Mark.isInner .other := ⟨rfl, nofun, nofun⟩
  rw [mark.eq_def] at h
  split at h
  · cases h
    exact .inl hinner
  · exact marks_exclamation h
  · obtain ⟨⟨body, hleft, hbody⟩, hfound⟩ := instruction_eq_ok h
    refine Marks.covered ?_ (show _ = Cover.instruction.opening ++ _ from rfl) hleft hbody
    rcases hfound with rfl | ⟨_, rfl⟩ <;> rfl
  · split at h
    · exact absurd h (fail_ne_ok _ _ _)
    · split at h
      · cases h
        exact .inr (.inr (.inl ⟨rfl, _, rfl⟩))
      · exact absurd h (fail_ne_ok _ _ _)
  · split at h
    · exact absurd h (fail_ne_ok _ _ _)
    · cases h
      exact .inl hinner
    · cases h
      exact .inl ⟨rfl, nofun, nofun⟩
  · split at h
    · cases h
      exact .inl hinner
    · split at h
      · cases h
        exact .inl hinner
      · split at h
        · cases h
          exact .inl hinner
        · exact absurd h (fail_ne_ok _ _ _)
  · cases h
    exact .inl ⟨rfl, nofun, nofun⟩
  · cases h
    exact .inl ⟨rfl, nofun, nofun⟩
  · exact .inl (percent_eq_ok h).1
  · exact .inl (pound_eq_ok h).1
  · split at h
    · rename_i c left _ _ _ _ _ _ _ _ _ hspace
      cases h
      obtain ⟨spaces, hspaces, -, hnone⟩ := exists_spaces left
      refine .inr (.inl ⟨rfl, ⟨c :: spaces, List.cons_ne_nil _ _, congrArg (c :: ·) hspaces⟩,
        fun _ _ hwrites => ?_⟩)
      rw [hspaces]
      refine .char ?_ (hwrites.chars hnone)
      rintro rfl
      exact absurd hspace (by decide)
    · split at h
      · exact .inl (literal_eq_ok h).1
      · split at h
        · cases h
          exact .inl hinner
        · split at h
          · exact .inl (nameToken_eq_ok h).1
          · split at h
            · exact .inl (nameToken_eq_ok h).1
            · exact absurd h (fail_ne_ok _ _ _)

/-- A document type that is read has no bracket in it. -/
def HasFlatDoctype (document : Text) : Prop :=
  ∀ inside found left, "<!DOCTYPE".toList ++ inside <:+ document → doctype inside =
    .ok (found, left) →
    ∃ passed, inside = passed ++ left ∧ '<' ∉ passed

theorem prologFrom_eq_ok {isFirst : Bool} {setup settled : Setup} (hflat : HasFlatDoctype text)
    (h : prologFrom fuel isFirst setup text = .ok (settled, rest)) :
    (∃ more, rest = '<' :: more) ∧ ∀ left tags, Writes rest tags left → Writes text tags left := by
  induction fuel generalizing isFirst setup text with
  | zero => exact absurd h (fail_ne_ok _ _ _)
  | succ fuel ih =>
    have hsuffix : ∀ {passed left : Text}, text = passed ++ left → HasFlatDoctype left := by
      rintro passed left rfl inside found rest hinside
      exact hflat inside found rest (hinside.trans (List.suffix_append _ _))
    have hpass : ∀ {found : Mark} {left : Text} {isFirst : Bool} {setup : Setup}, found.isPassed →
      Marks found text left →
        prologFrom fuel isFirst setup left = .ok (settled, rest) →
          (∃ more, rest = '<' :: more) ∧ ∀ left tags, Writes rest tags left →
            Writes text tags left := by
      intro found left isFirst setup hpassed hmarks h
      obtain hinner | ⟨-, ⟨passed, -, htext⟩, hwrites⟩ | ⟨rfl, -⟩ | ⟨keyword, rfl, -⟩ := hmarks
      · rw [hinner.1] at hpassed
        cases hpassed
      · obtain ⟨hrest, hmore⟩ := ih (hsuffix htext) h
        exact ⟨hrest, fun _ _ hleft => hwrites _ _ (hmore _ _ hleft)⟩
      · cases hpassed
      · cases hpassed
    cases text with
    | nil => exact absurd h (fail_ne_ok _ _ _)
    | cons c text =>
      rw [prologFrom.eq_def] at h
      dsimp only at h
      rw [bind_eq_ok] at h
      obtain ⟨⟨found, left⟩, hmark, h⟩ := h
      have hmarks := mark_eq_ok hmark
      dsimp only at h
      split at h
      · exact hpass rfl hmarks h
      · exact hpass rfl hmarks h
      · exact hpass rfl hmarks h
      · split at h
        · split at h
          · exact hpass rfl hmarks h
          · exact absurd h (fail_ne_ok _ _ _)
        · exact absurd h (fail_ne_ok _ _ _)
      · obtain hinner | ⟨hpassed, -⟩ | ⟨-, hmore⟩ | ⟨keyword, hfound, -⟩ := hmarks
        · exact absurd rfl hinner.2.1
        · cases hpassed
        · cases h
          exact ⟨hmore, fun _ _ hleft => hleft⟩
        · cases hfound
      · rename_i keyword
        split at h
        · rename_i hdoctype
          rw [bind_eq_ok] at h
          obtain ⟨⟨settings, after⟩, hread, h⟩ := h
          obtain hinner | ⟨hpassed, -⟩ | ⟨hfound, -⟩ | ⟨other, hfound, hnone, htext, hcomment,
            hsection⟩ := hmarks
          · exact absurd rfl (hinner.2.2 keyword)
          · cases hpassed
          · cases hfound
          · obtain rfl := Mark.declaration.inj hfound
            rw [Bool.and_eq_true, beq_iff_eq] at hdoctype
            have hsource : c :: text = "<!DOCTYPE".toList ++ left := by
              rw [htext, hdoctype.1]
              rfl
            obtain ⟨passed, rfl, hpassed⟩ :=
              hflat left settings after (hsource ▸ List.suffix_refl _) hread
            obtain ⟨hrest, hmore⟩ := ih (hsuffix (by rw [hsource, List.append_assoc])) h
            refine ⟨hrest, fun _ _ hleft => ?_⟩
            rw [htext]
            exact .declaration hcomment hsection (((hmore _ _ hleft).chars hpassed).chars hnone)
        · exact absurd h (fail_ne_ok _ _ _)
      · exact absurd h (by
          rw [Mark.misplaced.eq_def]
          split <;> exact fail_ne_ok _ _ _)

theorem epilog_eq_ok (hfuel : text.length < fuel) (h : epilog fuel text = .ok ()) :
    Writes text [] [] := by
  induction fuel generalizing text with
  | zero => cases hfuel
  | succ fuel ih =>
    cases text with
    | nil => exact .done []
    | cons c text =>
      have hpass : ∀ {found : Mark} {left : Text}, found.isPassed → Marks found (c :: text) left →
          epilog fuel left = .ok () → Writes (c :: text) [] [] := by
        intro found left hpassed hmarks h
        obtain hinner | ⟨-, ⟨passed, hne, htext⟩, hwrites⟩ | ⟨rfl, -⟩ | ⟨keyword, rfl, -⟩ := hmarks
        · rw [hinner.1] at hpassed
          cases hpassed
        · refine hwrites _ _ (ih ?_ h)
          have hpos := List.length_pos_iff.mpr hne
          have hlength := congrArg List.length htext
          rw [List.length_append] at hlength
          omega
        · cases hpassed
        · cases hpassed
      rw [epilog.eq_def] at h
      dsimp only at h
      rw [bind_eq_ok] at h
      obtain ⟨⟨found, left⟩, hmark, h⟩ := h
      have hmarks := mark_eq_ok hmark
      dsimp only at h
      split at h
      · exact hpass rfl hmarks h
      · exact hpass rfl hmarks h
      · exact hpass rfl hmarks h
      · exact absurd h (fail_ne_ok _ _ _)

/-- What the tags of a document declare, and what is always declared. -/
def declaredIn (tags : List LooseTag) : List (Option Text × Text) :=
  (some "xml".toList, xmlSpace) :: tags.flatMap LooseTag.declared

theorem rootElement_eq_ok {root : Element} {more : Text} (htext : text = '<' :: more)
    (h : rootElement entities text = .ok (root, rest)) :
    ∃ tags, Writes text tags rest ∧ ∀ declared, Scope.initial.ComesFrom declared →
      (∀ tag ∈ tags, tag.declared ⊆ declared) → List.Forall₂ (Opens declared) tags root.heads := by
  subst htext
  rw [rootElement, bind_eq_ok] at h
  obtain ⟨⟨read, left⟩, htag, h⟩ := h
  rw [bind_eq_ok] at h
  obtain ⟨opened, hopened, h⟩ := h
  obtain ⟨tag, hsource, hread⟩ := startTag_eq_ok htag
  have hopens := openElement_eq_ok hread hopened
  split_ifs at h
  · cases h
    refine ⟨[tag], hsource ▸ .opening hread.written (.done rest), fun declared hscope htags => ?_⟩
    exact .cons (hopens declared hscope (htags tag List.mem_cons_self)).2 .nil
  · obtain ⟨heads, hheads, tags, hwrites, hall⟩ := content_eq_ok h
    refine ⟨tag :: tags, hsource ▸ .opening hread.written hwrites, fun declared hscope htags => ?_⟩
    obtain ⟨htag, htags⟩ := List.forall_mem_cons.mp htags
    obtain ⟨hinner, hopen⟩ := hopens declared hscope htag
    rw [hheads]
    exact .cons hopen (hall declared (List.forall_mem_singleton.mpr hinner) htags)

theorem read_eq_ok {document : Text} {root : Element} (hflat : HasFlatDoctype document)
    (h : read document = .ok root) :
    ∃ tags, Writes document tags [] ∧ List.Forall₂ (Opens (declaredIn tags)) tags root.heads := by
  rw [read, bind_eq_ok] at h
  obtain ⟨⟨setup, text⟩, hprolog, h⟩ := h
  rw [bind_eq_ok] at h
  obtain ⟨⟨found, rest⟩, hroot, h⟩ := h
  rw [bind_eq_ok] at h
  obtain ⟨_, hepilog, h⟩ := h
  cases h
  have hmark : ∃ passed, document = passed ++ withoutMark document ∧ '<' ∉ passed := by
    cases document with
    | nil => exact ⟨[], rfl, by simp⟩
    | cons c document =>
      rw [withoutMark]
      split_ifs with hc
      · refine ⟨[c], rfl, ?_⟩
        rw [List.mem_singleton]
        rintro rfl
        exact absurd hc (by decide)
      · exact ⟨[], rfl, by simp⟩
  obtain ⟨passed, hdocument, hnone⟩ := hmark
  have hinside : HasFlatDoctype (withoutMark document) := by
    intro inside found left hsuffix
    refine hflat inside found left (hsuffix.trans ?_)
    exact ⟨passed, hdocument.symm⟩
  obtain ⟨⟨more, hmore⟩, hpass⟩ := prologFrom_eq_ok hinside hprolog
  obtain ⟨tags, hwrites, hopens⟩ := rootElement_eq_ok hmore hroot
  have hend := hwrites.append (epilog_eq_ok (Nat.lt_succ_self _) hepilog)
  rw [List.append_nil] at hend
  refine ⟨tags, ?_, hopens _ ?_ ?_⟩
  · rw [hdocument]
    exact (hpass _ _ hend).chars hnone
  · refine List.forall_mem_singleton.mpr ⟨xmlSpace, List.mem_cons_self, fun _ => rfl⟩
  · exact fun tag htag => fun entry hentry =>
      List.mem_cons_of_mem _ (List.mem_flatMap.mpr ⟨tag, htag, hentry⟩)

end Visualforce.Xml
