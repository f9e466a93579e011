import Visualforce.Proofs.Markup.Inert
import Visualforce.Proofs.Page.ScriptAttributes
import Visualforce.Proofs.Page.StaticResources

/-! # Script elements

A script element is matched from its opening bracket up to its end, whatever code is in its body,
and what it refers to is told from its own attributes, or else from its body.
-/
namespace Visualforce.Page
open Pattern Cursor Markup

variable {limit : Int} {text rest : Text} {before : Option Char}

def scriptName : Text := "script".toList

def scriptOpening : Text := '<' :: scriptName

def scriptClosing : Text := '<' :: '/' :: scriptName

def hasAnyCase (piece text : Text) : Bool := Text.somewhere (beginsWithName piece) text

/-- What is written from the end of the start tag on: a body, and an end tag with blanks in front of
its bracket. -/
structure ScriptContent where
  body : Text
  closing : Text
  trail : Text
  closing_same : SameUpToCase scriptName closing
  trail_blank : ∀ c ∈ trail, Text.isBlank c
  body_closed : hasAnyCase scriptClosing body = false
  body_unmarked : hasResources body = false

/-- An element as it is written. Without content it ends in its start tag. -/
structure ScriptElement where
  name : Text
  attributes : List ScriptAttribute
  trail : Text
  content : Option ScriptContent
  name_same : SameUpToCase scriptName name
  trail_blank : ∀ c ∈ trail, Text.isBlank c

namespace ScriptElement

variable (element : ScriptElement)

/-- What is written in the start tag behind the name. -/
def inside : Text := element.attributes.flatMap ScriptAttribute.source ++ element.trail

def ending : Text :=
  match element.content with
  | none => ['/', '>']
  | some content =>
      '>' :: (content.body ++ '<' :: '/' :: (content.closing ++ (content.trail ++ ['>'])))

def source : Text := '<' :: (element.name ++ (element.inside ++ element.ending))

def body : Text :=
  match element.content with
  | none => []
  | some content => content.body

/-- What the element refers to: the address in its attributes, or else its body up to the limit. -/
def reference (limit : Int) : Option ScriptReference :=
  match element.attributes.findSome? ScriptAttribute.address? with
  | some address => some ⟨.externalUrl, Text.trim address⟩
  | none => (nonEmpty? (Text.trim element.body)).map fun body =>
      ⟨.inlineScript, Text.truncate limit Text.ellipsis body⟩

end ScriptElement

theorem beginsWithName_bracket {name : Text} (hname : ∀ d ∈ name, Text.sameUpToCase d '<' = false)
    {c : Char}
    (h : beginsWithName ('<' :: name) (c :: (text ++ '<' :: rest))) : beginsWithName ('<' :: name)
    (c :: text) := by
  rw [beginsWithName, Bool.and_eq_true] at h ⊢
  have hbegins := beginsWithName_stop hname h.2 []
  rw [List.append_nil] at hbegins
  exact ⟨h.1, hbegins⟩

namespace ScriptElement

variable {element : ScriptElement}

/-- What is matched behind the inside of a start tag. -/
def endingPattern : Pattern ScriptPart :=
  alt (literal "/>") (char '>' ++ group .body (starLazy anyChar) ++ anyCase "</script" ++
    star blank ++ char '>')

theorem isItems_of_blank {blanks : Text} (h : ∀ c ∈ blanks, Text.isBlank c) : IsItems blanks := by
  refine .of_all fun c hc hmem => ?_
  exact (by decide : ∀ c ∈ ['>', '"', '\'', '/'], ¬ Text.isBlank c = true) c hmem (h c hc)

theorem isItems_inside : IsItems element.inside := by
  refine IsItems.append ?_ (isItems_of_blank element.trail_blank)
  induction element.attributes with
  | nil => exact .nil
  | cons attr attributes ih =>
    have hname : IsItems attr.name := by
      refine .of_all fun c hc hmem => ?_
      exact (by decide : ∀ c ∈ ['>', '"', '\'', '/'], ¬ isAttributeChar c = true) c hmem
        (attr.name_chars c hc)
    have hquote : '"' ∉ attr.value := fun hmem => absurd (ScriptAttribute.isQuote_of_mem_value hmem)
      (by decide)
    have hassignment : IsItems attr.assignment :=
      hname.append (.char (by decide) (.quoted hquote .nil))
    exact ((isItems_of_blank attr.gap_blank).append hassignment).append ih

/-- Behind the name of an element no word goes on. -/
theorem isWord_head?_inside (rest : Text) :
    (element.inside ++ (element.ending ++ rest)).head?.any Text.isWord = false := by
  have hblank {blanks : Text} (hne : blanks ≠ []) (h : ∀ c ∈ blanks, Text.isBlank c) (more : Text) :
      (blanks ++ more).head?.any Text.isWord = false := by
    obtain ⟨c, blanks, rfl⟩ := List.exists_cons_of_ne_nil hne
    exact Text.isWord_of_isBlank (h c List.mem_cons_self)
  have hending : (element.ending ++ rest).head?.any Text.isWord = false := by
    rw [ending]
    cases element.content with
    | none => exact (by decide : Text.isWord '/' = false)
    | some content => exact (by decide : Text.isWord '>' = false)
  rw [inside, List.append_assoc]
  cases element.attributes with
  | nil =>
    by_cases htrail : element.trail = []
    · rw [htrail]
      exact hending
    · exact hblank htrail element.trail_blank _
  | cons attr attributes =>
    rw [List.flatMap_cons, ScriptAttribute.source, List.append_assoc, List.append_assoc]
    exact hblank attr.gap_ne_nil attr.gap_blank _

theorem isWord_behind_name (before : Option Char) :
    (behind before ('<' :: element.name)).any Text.isWord = true := by
  have hword := element.name_same.isWord (by decide : ∀ c ∈ scriptName, c.isLower)
  rcases List.eq_nil_or_concat' element.name with hnil | ⟨front, c, hname⟩
  · have hsame := element.name_same
    rw [hnil] at hsame
    cases hsame
  · rw [hname, ← List.cons_append, behind_concat]
    exact hword c (hname ▸ by simp)

/-- In front of anything but the end of the tag the inside goes on. -/
theorem run_endingPattern_none {c : Char} (hc : c ∉ ['>', '/']) (before : Option Char) (rest : Text)
    (groups : List (ScriptPart × Span)) :
    endingPattern.run ⟨between before (c :: rest), groups⟩ some = none := by
  obtain ⟨hclose, hslash⟩ : c ≠ '>' ∧ c ≠ '/' := by simpa using hc
  have hliteral : (literal "/>" : Pattern ScriptPart).run ⟨between before (c :: rest), groups⟩
    some = none :=
    run_exactly_of_not_isPrefix fun h => hslash (List.cons_prefix_cons.mp h).1.symm
  rw [endingPattern, run_alt, hliteral, Option.none_or]
  simp only [run_append, char, run_one_cons, beq_false_of_ne hclose, if_neg Bool.false_ne_true]

/-- Nothing in a body is taken for its end tag. -/
theorem run_closing_none (content : ScriptContent) {front more : Text} {c : Char}
    (h : content.body = front ++ c :: more)
    (before : Option Char) (rest : Text) {groups : List (ScriptPart × Span)}
    {goOn : Place ScriptPart → Option (Place ScriptPart)} :
    (caseless scriptClosing).run ⟨between before (c :: (more ++ '<' :: rest)), groups⟩ goOn =
      none := by
  refine Option.eq_none_iff_forall_ne_some.mpr fun place hplace => ?_
  obtain ⟨_, hleads, -⟩ := exists_leads hplace
  have hbegins := beginsWithName_bracket (by decide) (beginsWithName_of_leads hleads)
  have hnone := Text.begins_of_suffix content.body_closed ⟨front, h.symm⟩ (List.cons_ne_nil c more)
  exact Bool.false_ne_true (hnone.symm.trans hbegins)

theorem run_endingPattern (element : ScriptElement) (span : Span) (before : Option Char)
    (rest : Text) :
    ∃ groups, endingPattern.run ⟨between before (element.ending ++ rest), [(.attributes, span)]⟩
    some =
      some ⟨between (some '>') rest, groups⟩ ∧ groups.lookup .attributes = some span ∧
      ((groups.lookup .body).map Span.text).getD [] = element.body := by
  rw [ending, body]
  cases element.content with
  | none =>
    refine ⟨[(.attributes, span)], ?_, rfl, rfl⟩
    have hliteral : (literal "/>" : Pattern ScriptPart).run ⟨between before (['/', '>'] ++ rest),
      [(.attributes, span)]⟩
        some = some ⟨between (some '>') rest, [(.attributes, span)]⟩ :=
          run_exactly_append ['/', '>'] rest
    rw [endingPattern, run_alt, hliteral, Option.some_or]
  | some content =>
    have hliteral {goOn : Place ScriptPart → Option (Place ScriptPart)} {behind : Text} :
        (literal "/>").run ⟨between before ('>' :: behind), [(.attributes, span)]⟩ goOn = none :=
      run_exactly_of_not_isPrefix fun h => absurd (List.cons_prefix_cons.mp h).1 (by decide)
    let tail := content.closing ++ (content.trail ++ '>' :: rest)
    let inside := between (some '>') (content.body ++ '<' :: '/' :: tail)
    let behindBody := between (behind (some '>') content.body) ('<' :: '/' :: tail)
    have htext : '>' ::
      (content.body ++ '<' :: '/' :: (content.closing ++ (content.trail ++ ['>']))) ++ rest =
        '>' :: (content.body ++ '<' :: '/' :: tail) := by
      simp [tail]
    have hpattern : endingPattern = alt (literal "/>")
      (char '>' ++ group .body (starLazy (one fun _ => true)) ++
        caseless scriptClosing ++ star blank ++ char '>') := rfl
    refine ⟨[(.body, inside.spanTo behindBody), (.attributes, span)], ?_, rfl,
      spanTo_text (some '>') (behind (some '>') content.body) content.body ('<' :: '/' :: tail)⟩
    rw [htext, hpattern, run_alt, hliteral, Option.none_or]
    simp only [run_append, char, run_one_cons, beq_self_eq_true, if_true, run_group]
    refine run_starLazyOne (fun _ _ => rfl) (fun first c second h => ?_) ?_
    · exact run_closing_none content h _ _
    · have hclosing : SameUpToCase scriptClosing ('<' :: '/' :: content.closing) :=
        .cons (by decide) (.cons (by decide) content.closing_same)
      refine (run_caseless_of_sameUpToCase hclosing).trans ?_
      refine run_starOne_of_some content.trail_blank ?_ (by rw [run_one_cons]; rfl)
      rintro c ⟨⟩
      decide

theorem exists_matchAt (element : ScriptElement) (before : Option Char) (rest : Text) : ∃ hit,
    scriptElement.matchAt (between before (element.source ++ rest)) = some hit ∧
    hit.stop = between (some '>') rest ∧
      hit.group .attributes = element.inside ∧ hit.group .body = element.body := by
  let start := behind before ('<' :: element.name)
  let tail := element.ending ++ rest
  let span := (between start (element.inside ++ tail)).spanTo
    (between (behind start element.inside) tail)
  obtain ⟨groups, hending, hattributes, hbody⟩ :=
    run_endingPattern element span (behind start element.inside) rest
  have hpattern : scriptElement = caseless scriptOpening ++ wordEdge ++
    group .attributes (starLazy tagItem) ++
      endingPattern := rfl
  have hopening : SameUpToCase scriptOpening ('<' :: element.name) :=
    .cons (by decide) element.name_same
  have hsource : element.source ++ rest = ('<' :: element.name) ++ (element.inside ++ tail) := by
    simp [source, tail]
  have hrun : scriptElement.run ⟨between before (element.source ++ rest), []⟩ some =
      some ⟨between (some '>') rest, groups⟩ := by
    simp only [hsource, hpattern, run_append]
    rw [run_caseless_of_sameUpToCase hopening, run_wordEdge_behind (isWord_behind_name before),
      isWord_head?_inside, if_neg Bool.false_ne_true, run_group, isItems_inside.run_starLazy]
    · exact run_starLazy_here hending
    · exact fun before c rest hc => run_endingPattern_none hc before rest _
  have hmatch : scriptElement.matchAt (between before (element.source ++ rest)) =
      some ⟨between before (element.source ++ rest), between (some '>') rest, groups⟩ := by
    rw [matchAt, hrun]
    rfl
  refine ⟨_, hmatch, rfl, ?_, hbody⟩
  rw [Hit.group, Hit.group?, hattributes]
  exact spanTo_text start (behind start element.inside) element.inside tail

theorem cutScript_eq {hit : Hit ScriptPart} (h : ∀ attr ∈ element.attributes, attr.IsClear)
    (hattributes : hit.group .attributes = element.inside)
    (hbody : hit.group .body = element.body) :
    cutScript limit hit = element.reference limit := by
  have hsearch := search_address h element.trail_blank
  rw [cutScript, reference, hattributes, hbody, ← hsearch, inside]
  cases scriptSource.search (element.attributes.flatMap ScriptAttribute.source ++
    element.trail) with
  | none => rfl
  | some hit => rfl

end ScriptElement

end Visualforce.Page
