import Visualforce.Proofs.Markup.PlainToken
import Visualforce.Proofs.Markup.TagItem
import Visualforce.Proofs.Page.Facts

/-! # Recovery patterns on plain pages

Every pattern of a recovery that begins with an angle bracket matches at the start tags it is meant
for and nowhere else, and what it captures there is what the tag says.
-/
namespace Visualforce.Page
open Pattern Cursor Markup

variable {κ α : Type} {groups : List (κ × Span)} {goOn : Place κ → Option (Place κ)}
variable {last : Place κ} {before : Option Char} {rest : Text}
variable {head : Head} {token : Token} {tokens : List Token}

/-- What the start tags of one name show. -/
def atTag (name : Text) (inside : Head → Bool → α) : Token → List α
  | .opening head closes => if head.tag = name then [inside head closes] else []
  | _ => []

theorem source_opening_append (head : Head) (closes : Bool) (rest : Text) :
    (Token.opening head closes).source ++ rest =
      '<' :: (head.tag ++ (head.attributeSource ++ (slash closes ++ '>' :: rest))) := by
  simp [Token.source, tagEnd]

theorem endsName_inside (head : Head) (closes : Bool) (rest : Text) :
    EndsName (head.attributeSource ++ (slash closes ++ '>' :: rest)) := by
  refine endsName_attributeSource head ?_
  simpa [tagEnd] using endsName_tagEnd closes rest

theorem yields_fixedTag {pattern : Pattern κ} (next : Pattern κ) {name : Text} {view : Hit κ → α}
    {inside : Head → Bool → α} (hname : IsFixedTag name)
    (hpattern : ∀ here goOn, pattern.run here goOn =
      (exactly ('<' :: name) ++ wordEdge ++ next).run here goOn) (h : token.IsPlain)
    (hnext : ∀ head closes, head.IsPlain → ∀ start before rest, ∃ last,
      next.run ⟨between before (head.attributeSource ++ (slash closes ++ '>' :: rest)), []⟩ some =
        some last ∧ last.cursor = between (some '>') rest ∧
        view ⟨start, last.cursor, last.groups⟩ = inside head closes) :
    Yields pattern (seen view) anything token.source (atTag name inside token) := by
  have hbegins : Begins pattern (· == '<') := by
    intro before text groups goOn hhead
    rw [hpattern]
    exact ((((Begins.one (· == '<')).append (exactly name)).append wordEdge).append next)
      _ _ _ _ hhead
  cases token with
  | text content => exact (misses_text content h.isClear).yields hbegins h.isClear
  | closing tag =>
    refine Misses.yields (fun more hsource before rest groups goOn => ?_) hbegins h.isClear
    obtain ⟨-, rfl⟩ := List.cons_eq_cons.mp hsource
    rw [hpattern]
    exact run_fixedTag_closing hname next
  | opening head closes =>
    have hplain : head.IsPlain := h
    by_cases htag : head.tag = name
    · have hat : atTag name inside (.opening head closes) = [inside head closes] := if_pos htag
      rw [hat]
      apply yields_of_hit hbegins h.isClear
      intro before rest
      obtain ⟨last, hrun, hlast, hview⟩ := hnext head closes hplain
        (between before ((Token.opening head closes).source ++ rest)) (behind (some '<') head.tag)
          rest
      refine ⟨_, some '>', head.tag ++ (head.attributeSource ++ tagEnd closes), [], by
        simp [Token.source], ?_, hlast, hview⟩
      rw [matchAt, source_opening_append, hpattern, run_fixedTag hname hplain.tag
        (endsName_inside head closes rest), if_pos htag, hrun]
      rfl
    · have hat : atTag name inside (.opening head closes) = [] := if_neg htag
      rw [hat]
      refine Misses.yields (fun more hsource before rest groups goOn => ?_) hbegins h.isClear
      obtain ⟨-, rfl⟩ := List.cons_eq_cons.mp hsource
      rw [List.append_assoc, List.append_assoc, hpattern, run_fixedTag hname hplain.tag ?_,
        if_neg htag]
      exact endsName_attributeSource head (endsName_tagEnd closes rest)

theorem flatMap_atTag (name : Text) (inside : Head → α) :
    tokens.flatMap (atTag name fun head _ => inside head) =
      ((headsOf tokens).filter (·.tag = name)).map inside := by
  induction tokens with
  | nil => rfl
  | cons token tokens ih =>
    rw [List.flatMap_cons, ih]
    cases token with
    | text content => rfl
    | closing tag => rfl
    | opening head closes =>
      rw [headsOf_opening, List.filter_cons]
      simp only [atTag, decide_eq_true_eq]
      split_ifs
      · rfl
      · rfl

theorem run_attributes (h : head.IsClear) (closes : Bool)
    (hgo : goOn ⟨between (behind before (head.attributeSource ++ slash closes)) ('>' :: rest),
      groups⟩ = some last) :
    (star tagItem).run ⟨between before (head.attributeSource ++ (slash closes ++ '>' :: rest)),
      groups⟩ goOn = some last := by
  refine h.isItems.run_star ?_
  rw [behind_append] at hgo
  cases closes with
  | false => exact (run_star_stop run_tagItem_close).trans hgo
  | true =>
    refine run_star_step_of_some (run_tagItem_char (by decide)) (by simp [slash]) ?_
    exact (run_star_stop run_tagItem_close).trans hgo

theorem mem_slash (closes : Bool) : ∀ c ∈ slash closes, c = '/' := by
  cases closes <;> simp [slash]

/-- The attributes of the start tags with the given name, in document order. -/
theorem findAll_openTag {text : String} {name : Text} (htext : text.toList = '<' :: name)
    (hname : IsFixedTag name) (h : ∀ token ∈ tokens, token.IsPlain) :
    ((openTag text).findAll () (sourceOf tokens)).map attributesIn =
      ((headsOf tokens).filter (·.tag = name)).map (·.attributeMap) := by
  have hyields : ∀ token ∈ tokens, Yields (openTag text)
      (seen fun hit => attributesIn (hit.group ())) anything token.source
      (atTag name (fun head _ => head.attributeMap) token) := by
    intro token htoken
    refine yields_fixedTag (group () (star tagItem) ++ char '>') hname ?_ (h token htoken) ?_
    · intro here goOn
      rw [openTag, literal, htext]
      rfl
    · intro head closes hhead start before rest
      let inside := head.attributeSource ++ slash closes
      refine ⟨⟨between (some '>') rest, [((), (between before (inside ++ '>' :: rest)).spanTo
        (between (behind before inside) ('>' :: rest)))]⟩, ?_, rfl, ?_⟩
      · rw [run_append, run_group]
        refine run_attributes hhead.isClear closes ?_
        simp [char, inside]
      · refine Eq.trans (congrArg attributesIn ?_)
          (attributesIn_attributeSource hhead.isClear _ (mem_slash closes))
        exact spanTo_text _ _ inside _
  rw [findAll, List.map_map]
  exact (hits_sourceOf hyields).trans (flatMap_atTag name _)

/-- The end of a panel's opening: a slash or none, and the bracket. -/
def panelEnd : Pattern PanelPart := group .slash (maybe (char '/')) ++ char '>'

theorem run_panelEnd (before : Option Char) (rest : Text) (groups : List (PanelPart × Span))
    (closes : Bool) : ∃ span,
    panelEnd.run ⟨between before (slash closes ++ '>' :: rest), groups⟩ some =
      some ⟨between (some '>') rest, (.slash, span) :: groups⟩ := by
  cases closes with
  | false => exact ⟨_, by simp [panelEnd, slash, char]; rfl⟩
  | true => exact ⟨_, by simp [panelEnd, slash, char]; rfl⟩

theorem run_panelEnd_of_ne {groups : List (PanelPart × Span)}
    {goOn : Place PanelPart → Option (Place PanelPart)} {c : Char} (hc : c ∉ ['>', '/']) :
    panelEnd.run ⟨between before (c :: rest), groups⟩ goOn = none := by
  simp only [List.mem_cons, List.not_mem_nil, or_false, not_or] at hc
  simp [panelEnd, char, hc]

/-- The attributes of all panels, in document order. -/
theorem hits_panelOpening (h : ∀ token ∈ tokens, token.IsPlain) :
    (panelOpening.hits (sourceOf tokens)).map (fun hit => attributesIn (hit.group .attributes)) =
      ((headsOf tokens).filter (·.tag = outputPanelTag)).map (·.attributeMap) := by
  have hname : IsFixedTag outputPanelTag := ⟨by decide, by decide, by decide⟩
  have htext : "<apex:outputPanel".toList = '<' :: outputPanelTag := by decide
  have hyields : ∀ token ∈ tokens, Yields panelOpening
      (seen fun hit => attributesIn (hit.group .attributes)) anything token.source
      (atTag outputPanelTag (fun head _ => head.attributeMap) token) := by
    intro token htoken
    refine yields_fixedTag (group .attributes (starLazy tagItem) ++ panelEnd) hname ?_
      (h token htoken) ?_
    · intro here goOn
      rw [panelOpening, literal, htext]
      rfl
    · intro head closes hhead start before rest
      let attributes :=
        (between before (head.attributeSource ++ (slash closes ++ '>' :: rest))).spanTo
        (between (behind before head.attributeSource) (slash closes ++ '>' :: rest))
      obtain ⟨span, hend⟩ := run_panelEnd (behind before head.attributeSource) rest
        [(.attributes, attributes)] closes
      refine ⟨⟨between (some '>') rest, [(.slash, span), (.attributes, attributes)]⟩, ?_, rfl, ?_⟩
      · rw [run_append, run_group, hhead.isClear.isItems.run_starLazy fun _ _ _ hc =>
          run_panelEnd_of_ne hc]
        exact run_starLazy_here hend
      · have hattributes := attributesIn_attributeSource hhead.isClear [] (by simp)
        rw [List.append_nil] at hattributes
        exact (congrArg attributesIn (spanTo_text _ _ _ _)).trans hattributes
  exact (hits_sourceOf hyields).trans (flatMap_atTag outputPanelTag _)

def namesAt : Token → List (Text × Text)
  | .opening head _ => (nameOf? head).toList
  | _ => []

theorem usage?_of_simple (h : isIdentifier head.tag) : usage? head = none := by
  rw [usage?, Head.isNamespaced_of_simple (isWordName_of_isIdentifier h)]
  rfl

theorem usage?_of_qualified {qualifier name : Text} (hqualifier : isIdentifier qualifier)
    (hname : isIdentifier name) (htag : head.tag = qualifier ++ ':' :: name) :
    usage? head = some ⟨qualifier, name, head.attributeMap⟩ := by
  obtain ⟨hspace, hbase, hnamespaced⟩ := Head.parts_of_qualified
    (isWordName_of_isIdentifier hqualifier)
    (isWordName_of_isIdentifier hname) htag
  rw [usage?, if_pos hnamespaced, hspace, hbase]
  rfl

theorem begins_componentName : Begins componentName (· == '<') :=
  (((Begins.one _).append _).append _).append _

section ComponentName
variable {name : Text}

theorem run_componentName_simple {groups : List (NamePart × Span)}
    {goOn : Place NamePart → Option (Place NamePart)} (hname : isIdentifier name)
    (hrest : EndsName rest) :
    componentName.run ⟨between before ('<' :: (name ++ rest)), groups⟩ goOn = none := by
  simp only [componentName, char, run_append, run_group, run_one_cons, beq_self_eq_true, if_true]
  refine (run_identifier hname (fun _ h => h) (fun _ h => isComponentChar_of_isNamePart h)
    (hrest.head? (by decide)) ?_).trans ?_
  · intro before c rest hc
    refine run_one_of_head? ?_
    rintro d ⟨⟩
    exact beq_false_of_ne fun h => absurd (h ▸ hc) (by decide)
  · exact run_one_of_head? (hrest.head? (by decide))

theorem matchAt_componentName {qualifier : Text} (hqualifier : isIdentifier qualifier)
    (hname : isIdentifier name) (hrest : EndsName rest) (before : Option Char) :
    ∃ hit, componentName.matchAt (between before ('<' :: (qualifier ++ ':' :: (name ++ rest)))) =
        some hit ∧
      hit.stop = between (behind (some ':') name) rest ∧
      (hit.group .space, hit.group .name) = (qualifier, name) := by
  let start := between before ('<' :: (qualifier ++ ':' :: (name ++ rest)))
  let spaceSpan := (between (some '<') (qualifier ++ ':' :: (name ++ rest))).spanTo
    (between (behind (some '<') qualifier) (':' :: (name ++ rest)))
  let nameSpan := (between (some ':') (name ++ rest)).spanTo (between (behind (some ':') name) rest)
  have hrun : componentName.run ⟨start, []⟩ some =
      some ⟨between (behind (some ':') name) rest, [(.name, nameSpan), (.space, spaceSpan)]⟩ := by
    simp only [start, componentName, char, run_append, run_group, run_one_cons, beq_self_eq_true,
      if_true]
    refine run_identifier_of_some hqualifier (fun _ h => h)
      (fun _ h => isComponentChar_of_isNamePart h) ?_ ?_
    · rintro c ⟨⟩
      decide
    · simp only [run_one_cons, beq_self_eq_true, if_true]
      exact run_identifier_of_some hname (fun _ h => h) (fun _ h => isComponentChar_of_isNamePart h)
        (hrest.head? (by decide)) rfl
  refine ⟨⟨start, between (behind (some ':') name) rest, [(.name, nameSpan), (.space, spaceSpan)]⟩,
    ?_, rfl, Prod.ext ?_ ?_⟩
  · rw [matchAt, hrun]
    rfl
  · exact spanTo_text _ _ qualifier _
  · exact spanTo_text _ _ name _

end ComponentName

theorem yields_componentName (h : token.IsPlain) :
    Yields componentName (seen fun hit => (hit.group .space, hit.group .name)) anything token.source
      (namesAt token) := by
  cases token with
  | text content => exact (misses_text content h.isClear).yields begins_componentName h.isClear
  | closing tag =>
    refine Misses.yields (fun more hsource before rest groups goOn => ?_) begins_componentName
      h.isClear
    obtain ⟨-, rfl⟩ := List.cons_eq_cons.mp hsource
    simp [componentName, componentWord, char]
  | opening head closes =>
    have hplain : head.IsPlain := h
    let left := head.attributeSource ++ tagEnd closes
    have hleft : ∀ rest, EndsName (left ++ rest) := by
      intro rest
      rw [List.append_assoc]
      exact endsName_attributeSource head (endsName_tagEnd closes rest)
    have hsource : (Token.opening head closes).source = '<' :: (head.tag ++ left) := rfl
    generalize htag : head.tag = tag at hsource
    have hat := hplain.tag
    rw [htag] at hat
    cases hat with
    | simple hname =>
      have hnames : namesAt (.opening head closes) = [] := by
        rw [namesAt, nameOf?, usage?_of_simple (htag ▸ hname)]
        rfl
      rw [hnames]
      refine Misses.yields (fun more hmore before rest groups goOn => ?_) begins_componentName
        h.isClear
      obtain ⟨-, rfl⟩ := List.cons_eq_cons.mp (hsource.symm.trans hmore)
      rw [List.append_assoc]
      exact run_componentName_simple hname (hleft rest)
    | @qualified qualifier name hqualifier _ hname =>
      have hnames : namesAt (.opening head closes) = [(qualifier, name)] := by
        rw [namesAt, nameOf?, usage?_of_qualified hqualifier hname htag]
        rfl
      rw [hnames]
      apply yields_of_hit begins_componentName h.isClear
      intro before rest
      obtain ⟨hit, hmatch, hstop, hview⟩ :=
        matchAt_componentName hqualifier hname (hleft rest) before
      refine ⟨hit, behind (some ':') name, _, left, hsource, ?_, hstop, hview⟩
      rw [hsource]
      simpa using hmatch

theorem flatMap_namesAt : tokens.flatMap namesAt = (headsOf tokens).filterMap nameOf? := by
  induction tokens with
  | nil => rfl
  | cons token tokens ih =>
    rw [List.flatMap_cons, ih]
    cases token with
    | text content => rfl
    | closing tag => rfl
    | opening head closes =>
      rw [headsOf_opening, List.filterMap_cons, namesAt]
      cases nameOf? head <;> rfl

/-- The names of all namespaced elements, in document order. -/
theorem hits_componentName (h : ∀ token ∈ tokens, token.IsPlain) :
    (componentName.hits (sourceOf tokens)).map (fun hit => (hit.group .space, hit.group .name)) =
      (headsOf tokens).filterMap nameOf? :=
  (hits_sourceOf fun token htoken => yields_componentName (h token htoken)).trans flatMap_namesAt

theorem search_pageTag (h : head.IsPlain) (htag : head.tag = pageRoot) (closes : Bool)
    (tokens : List Token) :
    (pageTag.search (sourceOf (.opening head closes :: tokens))).map (fun hit =>
      attributesIn (hit.group ())) = some head.attributeMap := by
  let inside := head.attributeSource ++ slash closes
  let start := behind (some '<') pageRoot
  have htext : "<apex:page".toList = '<' :: pageRoot := by decide
  have hsource : sourceOf (.opening head closes :: tokens) =
      ('<' :: pageRoot) ++ (head.attributeSource ++ (slash closes ++ '>' :: sourceOf tokens)) := by
    rw [sourceOf, List.flatMap_cons, source_opening_append, htag]
    rfl
  have hrun : pageTag.run ⟨between none (sourceOf (.opening head closes :: tokens)), []⟩ some =
      some ⟨between (some '>') (sourceOf tokens), [((), (between start (inside ++ '>' ::
        sourceOf tokens)).spanTo (between (behind start inside) ('>' :: sourceOf tokens)))]⟩ := by
    have hstart : (behind none ('<' :: pageRoot)).any Text.isWord = true := by decide
    rw [hsource, pageTag, anyCase, htext]
    simp only [run_append]
    rw [run_caseless_append, run_wordEdge, hstart, (endsName_inside head closes _).isWord_head?,
      if_pos (by decide), run_group]
    refine run_attributes h.isClear closes ?_
    simp [char, inside, start]
  rw [search_of_matchAt (by rw [matchAt, hrun]; rfl), Option.map_some]
  refine congrArg some (Eq.trans (congrArg attributesIn ?_)
    (attributesIn_attributeSource h.isClear _ (mem_slash closes)))
  exact spanTo_text _ _ inside _

end Visualforce.Page
