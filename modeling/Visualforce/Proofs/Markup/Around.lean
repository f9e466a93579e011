import Visualforce.Proofs.Markup.ClearBuild
import Visualforce.Proofs.Markup.Inert

/-! # Pages around a body

A page that holds nothing but a body, in its root or in an opaque element there. Wrapping puts the
body of an opaque element into sections, and no other pass finds anything in such a page when the
body is inert.
-/
namespace Visualforce.Markup
open Pattern Cursor
open Text (somewhere Skips EndsAt isInfix_iff_somewhere isPrefixOf_stop)

variable {name tag text body middle rest : Text} {contents : List Text} {before : Option Char}
variable {tags inner : List Text}

/-- A body inside elements without attributes, the outermost one first. -/
def around : List Text → Text → Text
  | [], body => body
  | tag :: tags, body => '<' :: (tag ++ '>' :: (around tags body ++ '<' :: '/' :: (tag ++ ['>'])))

def openings (tags : List Text) : List Token := tags.map fun tag => .opening ⟨tag, []⟩ false

def closings (tags : List Text) : List Token := tags.reverse.map Token.closing

theorem around_eq (tags : List Text) (body : Text) :
    around tags body = sourceOf (openings tags) ++ (body ++ sourceOf (closings tags)) := by
  induction tags with
  | nil => simp [around, openings, closings, sourceOf]
  | cons tag tags ih =>
    simp [around, ih, openings, closings, sourceOf, Token.source, Head.attributeSource, tagEnd,
      slash]

/-- What a page may have around a body: nothing but its root, or one of the opaque elements. -/
def bodyPaths : List (List Text) := [] :: Config.standard.opaqueTags.map ([·])

theorem forall_bodyPaths {property : List Text → Prop} (hroot : property [])
    (hscript : property ["script".toList]) (hstyle : property ["style".toList]) :
    ∀ inner ∈ bodyPaths, property inner :=
  List.forall_mem_cons.mpr
    ⟨hroot, List.forall_mem_cons.mpr ⟨hscript, List.forall_mem_singleton.mpr hstyle⟩⟩

theorem isUsable_pageRoot : IsUsable pageRoot :=
  ⟨.qualified (by decide : isPart "apex".toList) (by decide : isPart "page".toList), by decide⟩

theorem isPart_opaqueTags : ∀ name ∈ Config.standard.opaqueTags, isPart name := by decide

theorem isUsable_opaqueTags (hname : name ∈ Config.standard.opaqueTags) : IsUsable name := by
  have hpart := isPart_opaqueTags name hname
  exact ⟨.simple hpart, by simp [qualifierOf_simple hpart]⟩

theorem isSpelledBy_of_isUsable (h : IsUsable tag) : Head.IsSpelledBy id ⟨tag, []⟩ :=
  ⟨⟨h, by simp [Head.encoded], by simp [Head.encoded], by simp [Head.encoded]⟩, by simp⟩

theorem isClear_of_isUsable (h : IsUsable tag) (closes : Bool) :
    (Token.opening ⟨tag, []⟩ closes).IsClear :=
  (isSpelledBy_of_isUsable h).clear

def TakesName (names : Pattern OpaquePart) (name : Text) : Prop := ∀ before rest groups goOn,
  names.run ⟨between before (name ++ rest), groups⟩ goOn =
  goOn ⟨between (behind before name) rest, groups⟩

theorem takesName_caseless (name : Text) : TakesName (caseless name) name :=
  fun _ rest _ _ => run_caseless_append name rest

variable {names : Pattern OpaquePart}

theorem run_closingOf (htakes : TakesName names name) {groups : List (OpaquePart × Span)}
    (goOn : Place OpaquePart → Option (Place OpaquePart)) :
    (literal "</" ++ names ++ star blank ++ char '>').run
        ⟨between before ('<' :: '/' :: (name ++ '>' :: rest)), groups⟩ goOn =
      goOn ⟨between (some '>') rest, groups⟩ := by
  have hmark : '<' :: '/' :: (name ++ '>' :: rest) = "</".toList ++ (name ++ '>' :: rest) := rfl
  rw [hmark, literal, run_append, run_append, run_append, run_exactly_append, htakes, run_star_stop]
  · rfl
  · refine run_one_of_head? ?_
    rintro c ⟨⟩
    decide

def wrapped (body : Text) : Text :=
  if Text.isBlankText body then body else sectionsSource (dividedBody body)

theorem wrapBody_eq {hit : Hit OpaquePart} (htext : hit.text = around [name] body)
    (hopening : hit.group .opening = '<' :: (name ++ ['>'])) (hbody : hit.group .body = body)
    (hclosing : hit.group .closing = '<' :: '/' :: (name ++ ['>'])) :
    wrapBody hit = around [name] (wrapped body) := by
  rw [wrapBody, hbody, wrapped]
  split_ifs with hblank
  · exact htext
  · rw [hopening, hclosing, sectionsSource_dividedBody]
    simp [around]

section
variable (hname : name ∈ Config.standard.opaqueTags)
include hname

theorem run_openingOf (htakes : TakesName names name) {groups : List (OpaquePart × Span)}
    {last : Place OpaquePart}
    {goOn : Place OpaquePart → Option (Place OpaquePart)}
    (hgo : goOn ⟨between (some '>') rest, groups⟩ = some last) :
    (opaqueOpening names).run ⟨between before ('<' :: (name ++ '>' :: rest)), groups⟩ goOn =
      some last := by
  have hedge : (behind (some '<') name).any Text.isWord = true ∧
    (behind (some '<') name != some '/') = true :=
    (by decide : ∀ name ∈ Config.standard.opaqueTags, (behind (some '<')
    name).any Text.isWord = true ∧
      (behind (some '<') name != some '/') = true) name hname
  rw [opaqueOpening, run_append, run_append, run_append, run_append, run_append, char, run_one_cons,
    if_pos (by decide), htakes, run_wordEdge, hedge.1, List.head?_cons, if_pos (by decide)]
  refine run_starLazy_here ?_
  rw [run_guard, between_before, if_pos hedge.2, char, run_one_cons, if_pos (by decide), hgo]

/-- An element ends with the first end tag that the pattern for its names takes. -/
theorem matchAt_elementOf (htakes : TakesName names name)
    (hend : ∀ c more, c :: more <:+ body → ∀ before groups goOn,
    (literal "</" ++ names ++ star blank ++ char '>').run
      ⟨between before (c :: more ++ '<' :: '/' :: (name ++ '>' :: rest)), groups⟩ goOn = none)
    (before : Option Char) : ∃ hit,
      (opaqueElement names).matchAt (between before (around [name] body ++ rest)) = some hit ∧
        hit.stop = between (some '>') rest ∧ hit.text = around [name] body ∧
        hit.group .opening = '<' :: (name ++ ['>']) ∧ hit.group .body = body ∧
        hit.group .closing = '<' :: '/' :: (name ++ ['>']) := by
  let close := '<' :: '/' :: (name ++ '>' :: rest)
  let first := between before ('<' :: (name ++ '>' :: (body ++ close)))
  let second := between (some '>') (body ++ close)
  let third := between (behind (some '>') body) close
  let fourth := between (some '>') rest
  have hsource : around [name] body ++ rest = '<' :: (name ++ '>' :: (body ++ close)) := by
    simp [around, close]
  have hrun : (opaqueElement names).run ⟨first, []⟩ some = some ⟨fourth,
      [(.closing, third.spanTo fourth), (.body, second.spanTo third),
      (.opening, first.spanTo second)]⟩ := by
    rw [opaqueElement, run_append, run_append, run_group]
    refine run_openingOf hname htakes ?_
    rw [run_group, anyChar]
    refine run_starLazyOne (fun _ _ => rfl) (fun passed c more heq => ?_) ?_
    · rw [run_group]
      exact hend c more (heq ▸ List.suffix_append passed (c :: more)) _ _ _
    · rw [run_group, run_closingOf htakes]
  refine ⟨⟨first, fourth, _⟩, by rw [hsource, matchAt, hrun]; rfl, rfl, ?_, ?_, ?_, ?_⟩
  · exact spanTo_text_of_rest hsource.symm
  · exact spanTo_text_of_rest (by simp [first, second])
  · exact spanTo_text_of_rest (by simp [second, third])
  · exact spanTo_text_of_rest (by simp [third, fourth, close])

theorem matchAt_opaqueElement (hend : somewhere (beginsEnd name) body = false)
    (before : Option Char)
    (rest : Text) : ∃ hit,
      (opaqueElement (caseless name)).matchAt (between before (around [name] body ++ rest)) =
      some hit ∧
        hit.stop = between (some '>') rest ∧ hit.text = around [name] body ∧
        hit.group .opening = '<' :: (name ++ ['>']) ∧ hit.group .body = body ∧
        hit.group .closing = '<' :: '/' :: (name ++ ['>']) := by
  have hends : EndsAt (beginsEnd name) '<' :=
    endsAt_beginsEnd (fun d hd => (opaqueTags_stop name hname d hd).1) (by decide)
  refine matchAt_elementOf hname (takesName_caseless name)
    (fun c more hsuffix before groups goOn => ?_) before
  -- an end tag that begins inside the body would lie in it
  refine run_opaqueClosing_none (Bool.eq_false_iff.mpr fun hbegins => ?_) groups goOn
  have hinside : beginsEnd name (c :: more) :=
    List.append_nil (c :: more) ▸ hends c more _ [] hbegins
  rw [Text.begins_of_suffix hend hsuffix (List.cons_ne_nil c more)] at hinside
  cases hinside

theorem replace_own (hend : somewhere (beginsEnd name) body = false) :
    (opaqueElement (caseless name)).replace wrapBody (around [pageRoot, name] body) =
      around [pageRoot, name] (wrapped body) := by
  let first := Token.opening ⟨pageRoot, []⟩ false
  let last := Token.closing pageRoot
  have hsource : ∀ body, around [pageRoot, name] body = first.source ++
    (around [name] body ++ last.source) := by
    simp [around, first, last, Token.source, Head.attributeSource, tagEnd, slash]
  have htransparent : first.IsTransparent := ⟨by decide, by decide⟩
  have hfirst : ∀ rest, Quiet (opaqueElement (caseless name)) none first.source rest := fun rest =>
    (misses_opaqueTag hname (isClear_of_isUsable isUsable_pageRoot false) htransparent).quiet
      (begins_opaqueElement _) (isClear_of_isUsable isUsable_pageRoot false) none rest
  have hclear : last.IsClear := isUsable_pageRoot
  have hlast : Quiet (opaqueElement (caseless name)) (some '>') last.source [] :=
    (misses_opaqueTag hname hclear trivial).quiet (begins_opaqueElement _) hclear _ []
  obtain ⟨hit, hmatch, hstop, htext, hopening, hbody, hclosing⟩ :=
    matchAt_opaqueElement hname hend (behind none first.source) last.source
  have hlt : hit.stop.left <
    (between (behind none first.source) (around [name] body ++ last.source)).left := by
    rw [hstop]
    simp only [around, List.cons_append, between_left, List.length_cons, List.length_append]
    omega
  have hbehind := hlast.scans_written wrapBody
  rw [List.append_nil, ← hstop] at hbehind
  have hscan := ((hfirst _).scans_written wrapBody).append (.matched hmatch hlt hbehind)
  rw [hsource, hsource, hscan.replace, written, wrapBody_eq htext hopening hbody hclosing]

end

theorem element_around : ∀ name ∈ Config.standard.opaqueTags, ∀ inner ∈ bodyPaths, name ∉ inner →
    Skips (beginsElement name) (sourceOf (openings (pageRoot :: inner))) ∧
      somewhere (beginsEnd name) (sourceOf (closings (pageRoot :: inner))) = false ∧
        somewhere (beginsElement name) (sourceOf (closings (pageRoot :: inner))) = false := by
  refine List.forall_mem_cons.mpr ⟨?_, List.forall_mem_singleton.mpr ?_⟩
  · refine forall_bodyPaths (fun _ => ⟨fun _ => rfl, rfl, rfl⟩) (fun h => ?_) fun _ =>
      ⟨fun _ => rfl, rfl, rfl⟩
    exact absurd List.mem_cons_self h
  · refine forall_bodyPaths (fun _ => ⟨fun _ => rfl, rfl, rfl⟩) (fun _ => ⟨fun _ => rfl, rfl, rfl⟩)
      fun h => ?_
    exact absurd List.mem_cons_self h

theorem exists_closings (tag : Text) (tags : List Text) :
    ∃ last, sourceOf (closings (tag :: tags)) = '<' :: last := by
  cases htags : (tag :: tags).reverse with
  | nil => simp at htags
  | cons first others => exact ⟨_, by rw [closings, htags]; rfl⟩

section
variable (hname : name ∈ Config.standard.opaqueTags) (hinner : inner ∈ bodyPaths)
    (hnot : name ∉ inner)
include hname hinner hnot

/-- The passes for other opaque elements find nothing on the page. -/
theorem replace_around (h : somewhere (beginsElement name) body = false) :
    (opaqueElement (caseless name)).replace wrapBody (around (pageRoot :: inner) body) =
      around (pageRoot :: inner) body := by
  obtain ⟨hskips, hlast, hlast'⟩ := element_around name hname inner hinner hnot
  obtain ⟨last, heq⟩ := exists_closings pageRoot inner
  refine replace_opaqueElement ?_ wrapBody
  rw [around_eq, hskips, ← Bool.not_eq_true]
  rw [heq] at hlast hlast' ⊢
  intro hsome
  rw [somewhere_beginsElement_append hname hlast hlast' hsome] at h
  cases h

theorem replace_around_sections (h : somewhere (beginsElement name) contents.flatten = false) :
    (opaqueElement (caseless name)).replace wrapBody
      (around (pageRoot :: inner) (sectionsSource contents)) =
      around (pageRoot :: inner) (sectionsSource contents) := by
  obtain ⟨hskips, hlast, hlast'⟩ := element_around name hname inner hinner hnot
  refine replace_opaqueElement ?_ wrapBody
  rw [around_eq, hskips, ← Bool.not_eq_true]
  intro hsome
  rw [somewhere_beginsElement_sections hname hlast hlast' contents hsome] at h
  cases h

theorem replace_around_wrapped (h : somewhere (beginsElement name) body = false) :
    (opaqueElement (caseless name)).replace wrapBody (around (pageRoot :: inner) (wrapped body)) =
      around (pageRoot :: inner) (wrapped body) := by
  rw [wrapped]
  split_ifs
  · exact replace_around hname hinner hnot h
  · refine replace_around_sections hname hinner hnot ?_
    rwa [flatten_dividedBody]

end

theorem wrapOpaque_standard (text : Text) : wrapOpaque Config.standard.opaqueTags text =
    (opaqueElement (caseless "style".toList)).replace wrapBody
      ((opaqueElement (caseless "script".toList)).replace wrapBody text) := rfl

theorem wrapOpaque_around (hname : name ∈ Config.standard.opaqueTags)
    (h : ∀ other ∈ Config.standard.opaqueTags, somewhere (beginsElement other) body = false)
    (hend : somewhere (beginsEnd name) body = false) :
    wrapOpaque Config.standard.opaqueTags (around [pageRoot, name] body) =
      around [pageRoot, name] (wrapped body) := by
  have hscript : "script".toList ∈ Config.standard.opaqueTags := by decide
  have hstyle : "style".toList ∈ Config.standard.opaqueTags := by decide
  have hinner : [name] ∈ bodyPaths := List.mem_cons_of_mem _ (List.mem_map_of_mem hname)
  rw [wrapOpaque_standard]
  rcases List.mem_cons.mp hname with rfl | hname'
  · rw [replace_own hname hend, replace_around_wrapped hstyle hinner (by decide) (h _ hstyle)]
  · obtain rfl := List.mem_singleton.mp hname'
    rw [replace_around hscript hinner (by decide) (h _ hscript), replace_own hname hend]

theorem wrapOpaque_sections
    (h : ∀ name ∈ Config.standard.opaqueTags, somewhere (beginsElement name) contents.flatten =
    false) :
    wrapOpaque Config.standard.opaqueTags (around [pageRoot] (sectionsSource contents)) =
      around [pageRoot] (sectionsSource contents) :=
  wrapOpaque_of_replace fun name hname =>
    replace_around_sections hname List.mem_cons_self List.not_mem_nil (h name hname)

theorem trim_around (tag : Text) (inner : List Text) (body : Text) :
    Text.trim (withoutMarks (around (tag :: inner) body)) = around (tag :: inner) body := by
  refine trim_withoutMarks rfl ?_
  have hsource : around (tag :: inner) body =
      '<' :: (tag ++ '>' :: (around inner body ++ '<' :: '/' :: tag)) ++ ['>'] := by
    simp [around]
  rw [hsource]
  exact List.getLast?_concat

section
variable (hinner : inner ∈ bodyPaths)
include hinner

theorem isUsable_of_mem_bodyPaths : ∀ tag ∈ pageRoot :: inner, IsUsable tag := by
  refine List.forall_mem_cons.mpr ⟨isUsable_pageRoot, fun tag htag => ?_⟩
  rcases List.mem_cons.mp hinner with rfl | hinner
  · cases htag
  · obtain ⟨name, hname, rfl⟩ := List.mem_map.mp hinner
    rw [List.mem_singleton.mp htag]
    exact isUsable_opaqueTags hname

theorem isClear_openings : ∀ token ∈ openings (pageRoot :: inner), token.IsClear :=
  List.forall_mem_map.mpr fun tag htag =>
    isClear_of_isUsable (isUsable_of_mem_bodyPaths hinner tag htag) false

theorem isClear_closings : ∀ token ∈ closings (pageRoot :: inner), token.IsClear :=
  List.forall_mem_map.mpr fun tag htag => isUsable_of_mem_bodyPaths hinner tag
    (List.mem_reverse.mp htag)

/-- Everything around the sections of a body is in normal form. -/
theorem normalizeOutsideSections_around (hwhole : ∀ content ∈ contents, IsWhole content)
    (hne : contents ≠ []) :
    normalizeOutsideSections true (around (pageRoot :: inner) (sectionsSource contents)) =
      around (pageRoot :: inner) (sectionsSource contents) := by
  have hquiet : ∀ {tokens : List Token}, (∀ token ∈ tokens, token.IsClear) → ∀ before rest,
      Quiet sectionPattern before (sourceOf tokens) rest := fun htokens =>
    quiet_flatMap fun token htoken => (misses_sectionPattern (htokens token htoken)).quiet
      begins_sectionPattern (htokens token htoken)
  have hempty : normalize true [] = [] :=
    normalize_sourceOf (by simp : ∀ token ∈ [], Token.IsClear token)
  rw [normalizeOutsideSections, around_eq,
    changeBetween_sections (hquiet (isClear_openings hinner) _ _)
    hwhole hne (fun before => hquiet (isClear_closings hinner) before []) hempty,
    normalize_sourceOf (isClear_openings hinner), normalize_sourceOf (isClear_closings hinner)]

theorem somewhere_around {begins : Text → Bool} (hopening : Skips begins sectionOpening)
    (hclosing : Skips begins sectionClosing) (hends : EndsAt begins ']')
    (hfirst : ∀ inner ∈ bodyPaths, Skips begins (sourceOf (openings (pageRoot :: inner))))
    (hlast : ∀ inner ∈ bodyPaths, somewhere begins (sourceOf (closings (pageRoot :: inner))) =
    false)
    (h : somewhere begins contents.flatten = false) :
    somewhere begins (around (pageRoot :: inner) (sectionsSource contents)) = false := by
  rw [around_eq, hfirst inner hinner, ← Bool.not_eq_true]
  intro hsome
  rw [somewhere_sections_of_endsAt hopening hclosing (hlast inner hinner) hends contents hsome] at h
  cases h

theorem misnamed_around (h : somewhere beginsMisnamed contents.flatten = false) :
    somewhere beginsMisnamed (around (pageRoot :: inner) (sectionsSource contents)) = false := by
  exact somewhere_around hinner (fun _ => rfl) (fun _ => rfl) endsAt_beginsMisnamed
    (forall_bodyPaths (fun _ => rfl) (fun _ => rfl) fun _ => rfl) (forall_bodyPaths rfl rfl rfl) h

theorem not_isInfix_around {mark : Text} (hne : mark ≠ []) (hmem : ']' ∉ mark)
    (hopening : Skips mark.isPrefixOf sectionOpening)
    (hclosing : Skips mark.isPrefixOf sectionClosing)
    (hfirst : ∀ inner ∈ bodyPaths, Skips mark.isPrefixOf (sourceOf (openings (pageRoot :: inner))))
    (hlast : ∀ inner ∈ bodyPaths,
    somewhere mark.isPrefixOf (sourceOf (closings (pageRoot :: inner))) = false)
    (h : ¬ mark <:+: contents.flatten) :
    ¬ mark <:+: around (pageRoot :: inner) (sectionsSource contents) := by
  rw [isInfix_iff_somewhere hne, Bool.not_eq_true] at h ⊢
  exact somewhere_around hinner hopening hclosing
    (fun _ _ _ other h => isPrefixOf_stop hmem h other)
    hfirst hlast h

theorem marks_around (h : ∀ mark ∈ rootMarks, ¬ mark <:+: contents.flatten) :
    ∀ mark ∈ rootMarks, ¬ mark <:+: around (pageRoot :: inner) (sectionsSource contents) := by
  obtain ⟨hname, hspace⟩ := List.forall_mem_cons.mp h
  refine List.forall_mem_cons.mpr ⟨?_, List.forall_mem_singleton.mpr ?_⟩
  · exact not_isInfix_around hinner (by decide) (by decide) (fun _ => rfl) (fun _ => rfl)
      (forall_bodyPaths (fun _ => rfl) (fun _ => rfl) fun _ => rfl) (forall_bodyPaths rfl rfl rfl)
        hname
  · exact not_isInfix_around hinner (by decide) (by decide) (fun _ => rfl) (fun _ => rfl)
      (forall_bodyPaths (fun _ => rfl) (fun _ => rfl) fun _ => rfl) (forall_bodyPaths rfl rfl rfl)
      (hspace _ List.mem_cons_self)

end

end Visualforce.Markup
