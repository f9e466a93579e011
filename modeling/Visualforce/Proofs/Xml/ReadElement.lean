import Visualforce.Proofs.Markup.WrittenTree
import Visualforce.Proofs.Xml.ReadTag

/-! # Reading written elements

The parts of a page are read back one after the other: a text goes to the run that has been read,
and an element ends with its end tag and goes to its parent. Each reads as many marks as were
written.
-/
namespace Visualforce.Xml
open Markup

variable {entities : Entities} {opening rest : Text} {scope : Scope} {encode : Text → Text}
variable {qualifiers : List Text}

/-- The name whose qualifier, if it has one, is declared as that of a page. -/
def expandedName (name : Text) : Name :=
  ⟨(spelled name).qualifier.map ("urn:".toList ++ ·), (spelled name).base⟩

def expandedAttributes (head : Head) : List (Name × Text) :=
  head.attributes.map fun attr => (expandedName attr.name, attr.value)

/-- A scope that has the given qualifiers, each for the namespace that belongs to it, and no
default. -/
structure Scope.Binds (scope : Scope) (qualifiers : List Text) : Prop where
  bound : ∀ qualifier ∈ qualifiers, scope.lookup (some qualifier) =
    some ("urn:".toList ++ qualifier)
  free : scope.lookup none = none

theorem expandedName_injective {first second : Text} (hfirst : IsSpelling first)
    (hsecond : IsSpelling second) (h : expandedName first = expandedName second) :
    first = second := by
  obtain ⟨hspace, hbase⟩ := Name.mk.inj h
  have hqualifier := Option.map_injective (List.append_right_injective _) hspace
  refine spelled_injective hfirst hsecond ?_
  calc spelled first = ⟨(spelled first).qualifier, (spelled first).base⟩ := rfl
    _ = spelled second := by rw [hqualifier, hbase]

theorem expandElement_of_binds (hscope : scope.Binds qualifiers) {tag : Text}
    (h : qualifierOf tag ⊆ qualifiers) :
    expandElement opening scope (spelled tag) = .ok (expandedName tag) := by
  rw [expandElement, expandedName]
  cases hqualifier : (spelled tag).qualifier with
  | none =>
    rw [hscope.free]
    rfl
  | some qualifier =>
    rw [hscope.bound qualifier (h (by simp [qualifierOf, hqualifier]))]
    rfl

/-- Attributes that declare nothing leave the scope alone. -/
theorem separate_usable {attributes : List Attribute} {written : List WrittenAttribute}
    (hreads : List.Forall₂ Reads attributes written)
    (hnames : ∀ attr ∈ attributes, IsUsable attr.name ∧ attr.name ≠ "xmlns".toList)
    (hnodup : (attributes.map (·.name)).Nodup) {seen : List WrittenName}
    (hseen : ∀ attr ∈ attributes, spelled attr.name ∉ seen) (others : List (WrittenName × Text)) :
    separate entities opening written seen scope others =
      .ok (scope, others.reverse ++ attributes.map fun attr =>
        (spelled attr.name, attr.value)) := by
  induction hreads generalizing seen others with
  | nil => simp [separate]
  | @cons attr written attributes _ hread _ ih =>
    obtain ⟨⟨hname, hne⟩, hnames⟩ := List.forall_mem_cons.mp hnames
    obtain ⟨hfresh, hseen⟩ := List.forall_mem_cons.mp hseen
    rw [List.map_cons, List.nodup_cons] at hnodup
    have hbinds : written.name.binds? = none := by
      rw [hread.name, WrittenName.binds?]
      cases hqualifier : (spelled attr.name).qualifier with
      | none =>
        have htext := text_spelled hname.spelling
        rw [WrittenName.text, hqualifier] at htext
        exact if_neg (by simpa [htext] using hne)
      | some qualifier =>
        have hfree := hname.free qualifier (by simp [qualifierOf, hqualifier])
        exact if_neg fun heq => absurd (beq_iff_eq.mp heq ▸ hfree) (by decide)
    rw [separate, hread.name, if_neg (by simpa using hfresh),
      resolveValue_of_stands _ _ hread.value, ok_bind, ← hread.name, hbinds]
    dsimp only
    rw [ih hnames hnodup.2, hread.name]
    · simp
    · intro other hother
      refine List.not_mem_cons_of_ne_of_not_mem (fun heq => hnodup.1 ?_) (hseen other hother)
      rw [hread.name] at heq
      rw [← spelled_injective (hnames other hother).1.spelling hname.spelling heq]
      exact List.mem_map_of_mem hother

theorem expandAttributes_of_binds (hscope : scope.Binds qualifiers) {attributes : List Attribute}
    (hnames : ∀ attr ∈ attributes, IsSpelling attr.name ∧ qualifierOf attr.name ⊆ qualifiers)
    (hnodup : (attributes.map (·.name)).Nodup) {expanded : List (Name × Text)}
    (hfresh : ∀ attr ∈ attributes, ∀ entry ∈ expanded, entry.1 ≠ expandedName attr.name) :
    expandAttributes opening scope (attributes.map fun attr => (spelled attr.name, attr.value))
      expanded =
      .ok (expanded.reverse ++ attributes.map fun attr =>
        (expandedName attr.name, attr.value)) := by
  induction attributes generalizing expanded with
  | nil => simp [expandAttributes]
  | cons attr attributes ih =>
    obtain ⟨⟨hname, hdeclared⟩, hnames⟩ := List.forall_mem_cons.mp hnames
    obtain ⟨hfirst, hothers⟩ := List.forall_mem_cons.mp hfresh
    rw [List.map_cons, List.nodup_cons] at hnodup
    have hstep : expandAttributes opening scope
        ((attr :: attributes).map fun attr => (spelled attr.name, attr.value)) expanded =
          expandAttributes opening scope
            (attributes.map fun attr => (spelled attr.name, attr.value))
            ((expandedName attr.name, attr.value) :: expanded) := by
      rw [List.map_cons, expandAttributes, expandedName]
      cases hqualifier : (spelled attr.name).qualifier with
      | none => rfl
      | some qualifier =>
        have hall : (expanded.any fun entry =>
            entry.1 == (⟨some ("urn:".toList ++ qualifier), (spelled attr.name).base⟩ : Name)) =
              false := by
          rw [List.any_eq_false]
          intro entry hentry heq
          refine hfirst entry hentry ?_
          rw [beq_iff_eq.mp heq, expandedName, hqualifier]
          rfl
        dsimp only
        rw [hscope.bound qualifier (hdeclared (by simp [qualifierOf, hqualifier]))]
        dsimp only
        rw [if_neg (ne_true_of_eq_false hall)]
        rfl
    rw [hstep, ih hnames hnodup.2]
    · simp
    · refine fun other hother => List.forall_mem_cons.mpr ⟨fun heq => hnodup.1 ?_,
        hothers other hother⟩
      rw [expandedName_injective hname (hnames other hother).1 heq]
      exact List.mem_map_of_mem hother

/-- An element that has been opened inside a scope. -/
def openedBy (scope : Scope) (head : Head) : Opened :=
  ⟨spelled head.tag, expandedName head.tag, expandedAttributes head, scope⟩

theorem openElement_of_separate {head : Head} (h : head.IsReadBack encode) {outer : Scope}
    (hscope : scope.Binds qualifiers) (hdeclared : head.qualifiers ⊆ qualifiers)
    {written : List WrittenAttribute} (closes : Bool)
    (hseparate : separate entities opening written [] outer [] =
      .ok (scope, head.attributes.map fun attr => (spelled attr.name, attr.value))) :
    openElement entities outer opening ⟨spelled head.tag, written, closes⟩ =
      .ok (openedBy scope head) := by
  obtain ⟨htag, hattributes⟩ := List.append_subset.mp hdeclared
  have hnames : ∀ attr ∈ head.attributes, IsSpelling attr.name ∧
    qualifierOf attr.name ⊆ qualifiers :=
    fun attr hattr => ⟨(h.names attr hattr).1.spelling, fun qualifier hmem =>
      hattributes (List.mem_flatMap.mpr ⟨attr, hattr, hmem⟩)⟩
  rw [openElement, hseparate, ok_bind]
  dsimp only
  rw [expandAttributes_of_binds hscope hnames h.distinct (by simp), ok_bind,
    expandElement_of_binds hscope htag, ok_bind]
  rfl

theorem openElement_inner (entities : Entities) (opening : Text) {head : Head}
    (h : head.IsReadBack encode) (hscope : scope.Binds qualifiers)
    (hdeclared : head.qualifiers ⊆ qualifiers) {written : List WrittenAttribute}
    (hreads : List.Forall₂ Reads head.attributes written) (closes : Bool) :
    openElement entities scope opening ⟨spelled head.tag, written, closes⟩ =
      .ok (openedBy scope head) :=
  openElement_of_separate h hscope hdeclared closes
    (separate_usable hreads h.names h.distinct (fun _ _ => List.not_mem_nil) [])

/-- How the nodes of a document are made. -/
def documentMaker : Maker Node where
  text run := if run.isEmpty then [] else [.text run]
  element head children := .element (expandedName head.tag) (expandedAttributes head) children

/-- How many steps it takes to read a token. -/
def stepsAt : Token → Nat
  | .text content => content.length
  | .opening _ _ => 1
  | .closing _ => 1

def stepsOf : List Token → Nat
  | [] => 0
  | token :: rest => stepsAt token + stepsOf rest

/-- No closing angle bracket comes before the next opening one, so no text can end a section. -/
def IsCalm (text : Text) : Prop := '>' ∉ text.takeWhile (· != '<')

theorem IsCalm.append {text : Text} (hrest : IsCalm rest) (h : '>' ∉ text) :
    IsCalm (text ++ rest) := by
  induction text with
  | nil => exact hrest
  | cons c text ih =>
    rw [List.mem_cons, not_or] at h
    rw [IsCalm, List.cons_append, List.takeWhile_cons]
    split_ifs
    · exact List.not_mem_cons_of_ne_of_not_mem h.1 (ih h.2)
    · exact List.not_mem_nil

/-- A character that stands for itself in a text. -/
def isTextChar (c : Char) : Bool := isLegal c && c != '\r' && !"<&>".toList.contains c

variable {outer : List Frame} {frame : Frame} {run : Text}

theorem content_char {c : Char} (hc : isTextChar c) (hrest : IsCalm (c :: rest)) (n : Nat) :
    content entities (n + 1) outer frame run (c :: rest) =
      content entities n outer frame (c :: run) rest := by
  simp only [isTextChar, Bool.and_eq_true, bne_iff_ne, Bool.not_eq_true', List.contains_eq_mem,
    decide_eq_false_iff_not] at hc
  obtain ⟨⟨hlegal, hreturn⟩, hmarks⟩ := hc
  simp at hmarks
  rw [content]
  · simp [hlegal, hreturn]
  case x_13 =>
    rintro after rfl rfl
    exact hrest (by simp)
  all_goals simp [hmarks, hreturn]

theorem content_reference {c : Char} {ref : Text} (href : IsReference c ref) (n : Nat) :
    content entities (n + 1) outer frame run (ref ++ rest) =
      content entities n outer frame (c :: run) rest := by
  obtain ⟨more, read, rfl, hrefers, hreference⟩ := reference_append href
  rw [List.cons_append, content]
  · rw [hreference, ok_bind]
    cases hrefers with
    | number => rfl
    | entity name h => simp [entities.lookup?_predefined h]

/-- A text goes to the run, one character at a time. -/
theorem content_text {source text : Text} (h : Spells isTextChar source text) (hrest : IsCalm rest)
    (n : Nat) : content entities (text.length + n) outer frame run (source ++ rest) =
      content entities n outer frame (text.reverse ++ run) rest := by
  induction h generalizing run with
  | nil => simp
  | @char c source text hc htext ih =>
    have hcalm : IsCalm (c :: source ++ rest) :=
      hrest.append (IsLegible.not_mem ⟨_, .char hc htext⟩ (by decide) (by decide))
    rw [List.cons_append] at hcalm
    rw [List.cons_append, List.length_cons, Nat.add_right_comm, content_char hc hcalm, ih]
    simp
  | reference href _ ih =>
    rw [List.append_assoc, List.length_cons, Nat.add_right_comm, content_reference href, ih]
    simp

/-- An end tag is one of the element that is open, or it is a fault. -/
theorem endTag_name {tag : Text} (h : IsSpelling tag) (written : WrittenName) :
    endTag written opening (tag ++ '>' :: rest) =
      if tag == written.text then .ok rest else fail .mismatchedTag (tag ++ '>' :: rest) := by
  obtain ⟨c, more, htag, hc, -⟩ := h.exists_cons
  have hall : ∀ c ∈ tag, (isNameChar c || c == ':') = true :=
    h.forall_mem (fun c hc => by simp [isNameChar_of_isPartChar hc]) (by decide)
  have hstop : ∀ c ∈ ('>' :: rest).head?, (isNameChar c || c == ':') = false := by
    rintro c ⟨⟩
    decide
  obtain ⟨htake, hdrop⟩ := takeWhile_append_of_head? hall hstop
  have hstart : (tag ++ '>' :: rest).head?.any isNameStart = true := by
    rw [htag]
    exact isNameStart_of_isTagNameStart hc
  rw [endTag]
  simp only [hstart, htake, hdrop]
  rw [skipSpace_of_ne (by decide)]
  rfl

/-- What follows an element that has been closed. -/
def leave (entities : Entities) (n : Nat) (outer : List Frame) (element : Element) (rest : Text) :
    Except Fault (Element × Text) :=
  match outer with
  | [] => .ok (element, rest)
  | parent :: outer => content entities n outer (parent.add element) [] rest

theorem content_endTag {tag : Text} (h : IsSpelling tag) (n : Nat) :
    content entities (n + 1) outer frame run ('<' :: '/' :: (tag ++ '>' :: rest)) =
      if tag == frame.opened.written.text then leave entities n outer (frame.flush run).close rest
      else fail .mismatchedTag (tag ++ '>' :: rest) := by
  rw [content, endTag_name h]
  split_ifs
  · cases outer <;> rfl
  · rfl

theorem content_closing {tag : Text} (h : IsSpelling tag)
    (hframe : frame.opened.written = spelled tag)
    (n : Nat) :
    content entities (n + 1) outer frame run ('<' :: '/' :: (tag ++ '>' :: rest)) =
      leave entities n outer (frame.flush run).close rest := by
  rw [content_endTag h, hframe, text_spelled h, if_pos (beq_self_eq_true tag)]

theorem isValueChar_of_isClearValueChar {c : Char} (h : isClearValueChar c) : isValueChar c := by
  rw [isClearValueChar, Bool.or_eq_true, beq_iff_eq] at h
  rcases h with h | rfl
  · simp [isClearChar, isValueChar] at h ⊢
    tauto
  · decide

theorem isReadable_encoded {head : Head} (h : head.IsReadBack encode) :
    List.Forall₂ IsReadable (head.encoded encode).attributes head.attributes := by
  rw [Head.encoded, List.forall₂_map_left_iff, List.forall₂_same]
  intro attr hattr
  exact ⟨rfl, (h.names attr hattr).1.spelling,
    (h.values attr hattr).mono fun _ => isValueChar_of_isClearValueChar⟩

theorem content_opening {head : Head} (h : head.IsReadBack encode)
    (hscope : frame.opened.scope.Binds qualifiers) (hdeclared : head.qualifiers ⊆ qualifiers)
    (closes : Bool) (n : Nat) :
    content entities (n + 1) outer frame run (((Token.opening head closes).encoded encode).source ++
      rest) =
      if closes then
        content entities n outer
          ((frame.flush run).add ⟨expandedName head.tag, expandedAttributes head, []⟩) [] rest
      else
        content entities n (frame.flush run :: outer) ⟨openedBy frame.opened.scope head, []⟩
          [] rest := by
  let raw := head.encoded encode
  have hspelling : IsSpelling raw.tag := h.clear.tag.spelling
  obtain ⟨c, more, htag, hc, -⟩ := hspelling.exists_cons
  let after := raw.tag ++ (raw.attributeSource ++ (tagEnd closes ++ rest))
  have hsource : ((Token.opening head closes).encoded encode).source ++ rest = '<' :: after := by
    simp [Token.source, Token.encoded, after, raw]
  obtain ⟨written, hreads, hstart⟩ := startTag_append ('<' :: after) hspelling
    (isReadable_encoded h)
    closes rest
  have hopen : openElement entities frame.opened.scope ('<' :: after)
    ⟨spelled raw.tag, written, closes⟩ =
      .ok (openedBy frame.opened.scope head) :=
        openElement_inner _ _ h hscope hdeclared hreads closes
  have htag' : after = c :: (more ++ (raw.attributeSource ++ (tagEnd closes ++ rest))) := by
    simp [after, htag]
  rw [hsource, content]
  · rw [hstart, ok_bind]
    dsimp only
    rw [hopen, ok_bind]
    cases closes <;> rfl
  all_goals
    rw [htag']
    rintro next heq
    obtain ⟨rfl, -⟩ := List.cons_eq_cons.mp heq
    exact absurd hc (by decide)

/-- The tokens of a page as they are written out. -/
def encodedSource (encode : Text → Text) (tokens : List Token) : Text :=
  sourceOf (tokens.map (Token.encoded encode))

@[simp] theorem encodedSource_nil (encode : Text → Text) : encodedSource encode [] = [] := rfl

@[simp] theorem encodedSource_cons (encode : Text → Text) (token : Token) (tokens : List Token) :
    encodedSource encode (token :: tokens) = (token.encoded encode).source ++
      encodedSource encode tokens :=
  rfl

@[simp] theorem encodedSource_append (encode : Text → Text) (first second : List Token) :
    encodedSource encode (first ++ second) = encodedSource encode first ++
      encodedSource encode second := by
  rw [encodedSource, List.map_append, sourceOf_append, encodedSource, encodedSource]

theorem isCalm_encodedSource {tokens : List Token} (h : ∀ token ∈ tokens, token.IsReadBack encode)
    (hrest : IsCalm rest) : IsCalm (encodedSource encode tokens ++ rest) := by
  induction tokens with
  | nil => exact hrest
  | cons token tokens ih =>
    obtain ⟨htoken, htokens⟩ := List.forall_mem_cons.mp h
    have hcalm := ih htokens
    rw [encodedSource_cons, List.append_assoc]
    cases token with
    | text content => exact hcalm.append (IsLegible.not_mem ⟨_, htoken⟩ (by decide) (by decide))
    | opening head closes => simp [IsCalm, Token.source, Token.encoded]
    | closing tag => simp [IsCalm, Token.source, Token.encoded]

@[simp] theorem flush_opened (frame : Frame) (run : Text) :
    (frame.flush run).opened = frame.opened := by
  rw [Frame.flush]
  split_ifs <;> rfl

@[simp] theorem add_opened (frame : Frame) (element : Element) :
    (frame.add element).opened = frame.opened := rfl

theorem flush_children (frame : Frame) (run : Text) :
    (frame.flush run).children.reverse = frame.children.reverse ++
      documentMaker.text run.reverse := by
  simp only [Frame.flush, documentMaker, List.isEmpty_reverse]
  split_ifs <;> simp

theorem stepsOf_append (first second : List Token) :
    stepsOf (first ++ second) = stepsOf first + stepsOf second := by
  induction first with
  | nil => exact (Nat.zero_add _).symm
  | cons token first ih => rw [List.cons_append, stepsOf, ih, stepsOf, Nat.add_assoc]

theorem isTextChar_of_isClearChar {c : Char} (h : isClearChar c) : isTextChar c := by
  simp [isClearChar, isTextChar] at h ⊢
  tauto

/-- The parts of an element are read up to its end tag, behind the children and the run before. -/
theorem content_forest : ∀ (parts : List Written) {outer : List Frame} (frame : Frame) {run : Text}
    {tag rest : Text} (n : Nat), (∀ token ∈ tokensOf parts, token.IsReadBack encode) →
    frame.opened.scope.Binds qualifiers →
      (∀ head ∈ headsOf (tokensOf parts), head.qualifiers ⊆ qualifiers) →
    IsSpelling tag → frame.opened.written = spelled tag →
    content entities (stepsOf (tokensOf parts) + (n + 1)) outer frame run
        (encodedSource encode (tokensOf parts) ++ '<' :: '/' :: (tag ++ '>' :: rest)) =
      leave entities n outer ⟨frame.opened.name, frame.opened.attributes, frame.children.reverse ++
        (documentMaker.text (run.reverse ++ (forestOf documentMaker parts).front) ++
          (forestOf documentMaker parts).nodes)⟩ rest
  | [], outer, frame, run, tag, rest, n, h, hscope, hdeclared, htag, hframe => by
    have hzero : stepsOf (tokensOf []) + (n + 1) = n + 1 := Nat.zero_add _
    rw [hzero]
    refine (content_closing htag hframe n).trans ?_
    rw [Frame.close, flush_opened, flush_children]
    simp [forestOf]
  | .text text :: parts, outer, frame, run, tag, rest, n, h, hscope, hdeclared, htag, hframe => by
    rw [tokensOf_text, List.forall_mem_cons] at h
    obtain ⟨htext, hparts⟩ := h
    have hcalm : IsCalm (encodedSource encode (tokensOf parts) ++
      '<' :: '/' :: (tag ++ '>' :: rest)) :=
      isCalm_encodedSource hparts (by simp [IsCalm])
    have hspells : Spells isTextChar (encode text) text :=
      htext.mono fun _ => isTextChar_of_isClearChar
    rw [tokensOf_text, stepsOf, stepsAt, encodedSource_cons, Token.encoded, Token.source,
      Nat.add_assoc, List.append_assoc, content_text hspells hcalm,
      content_forest parts _ n hparts hscope hdeclared htag hframe]
    simp [forestOf, Written.before]
  | .closed head :: parts, outer, frame, run, tag, rest, n, h, hscope, hdeclared, htag, hframe => by
    rw [tokensOf_closed, List.forall_mem_cons] at h
    obtain ⟨hhead, hparts⟩ := h
    obtain ⟨hdeclared, hbehind⟩ := List.forall_mem_cons.mp hdeclared
    have hinside :
      ((frame.flush run).add ⟨expandedName head.tag, expandedAttributes head, []⟩).opened =
        frame.opened := by
      rw [add_opened, flush_opened]
    rw [tokensOf_closed, stepsOf, stepsAt, Nat.add_comm 1, Nat.add_right_comm, encodedSource_cons,
      List.append_assoc, content_opening hhead hscope hdeclared, if_pos rfl,
      content_forest parts _ n hparts (by rwa [hinside]) hbehind htag (by rwa [hinside])]
    simp [Frame.add, flush_children, forestOf, Written.before, Forest.all, documentMaker,
      Element.toNode]
  | .element head children :: parts, outer, frame, run, tag, rest, n, h, hscope, hdeclared, htag,
      hframe => by
    rw [tokensOf_element, headsOf_opening, headsOf_append, headsOf_closing, List.forall_mem_cons,
      List.forall_mem_append] at hdeclared
    obtain ⟨hdeclared, hinner, hbehind⟩ := hdeclared
    rw [tokensOf_element, List.forall_mem_cons, List.forall_mem_append, List.forall_mem_cons] at h
    obtain ⟨hhead, hchildren, -, hparts⟩ := h
    have hspelled : head.IsReadBack encode := hhead
    -- the children are read first, and then the parts behind the element
    have hsteps : stepsOf (tokensOf (.element head children :: parts)) + (n + 1) =
        stepsOf (tokensOf children) + (stepsOf (tokensOf parts) + (n + 1) + 1) + 1 := by
      simp only [tokensOf_element, stepsOf, stepsOf_append, stepsAt]
      omega
    have hsource : encodedSource encode (tokensOf (.element head children :: parts)) ++
        '<' :: '/' :: (tag ++ '>' :: rest) = ((Token.opening head false).encoded encode).source ++
          (encodedSource encode (tokensOf children) ++ '<' :: '/' :: (head.tag ++ '>' ::
            (encodedSource encode (tokensOf parts) ++ '<' :: '/' :: (tag ++ '>' :: rest)))) := by
      simp [tokensOf_element, Token.source, Token.encoded]
    have hinside : ∀ element, ((frame.flush run).add element).opened = frame.opened := by
      intro element
      rw [add_opened, flush_opened]
    rw [hsteps, hsource, content_opening hspelled hscope hdeclared, if_neg (by decide),
      content_forest children ⟨openedBy frame.opened.scope head, []⟩ _ hchildren hscope hinner
        hspelled.spelling rfl, leave,
      content_forest parts _ n hparts (by rwa [hinside]) hbehind htag (by rwa [hinside])]
    simp [Frame.add, flush_children, forestOf, Written.before, Forest.all, documentMaker,
      Element.toNode, openedBy]

end Visualforce.Xml
