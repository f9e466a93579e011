import Visualforce.Proofs.Markup.KeptNames
import Visualforce.Proofs.Markup.NormalizedTags
import Visualforce.Proofs.Markup.ReferencedTags
import Visualforce.Proofs.Markup.Sections

/-! # The names of a built page

The stretches of a page between its sections are written in normal form, and qualifiers are declared
in one tag of the whole. The elements of its tree are named as its start tags are, one by one and
with their attributes.
-/
namespace Visualforce.Markup
open Pattern Cursor

variable {config : Config} {allow : Bool} {before : Option Char} {text gap content rest more : Text}
variable {tag other : LooseTag} {tags others : List LooseTag} {tree : Element} {head : Head}

theorem WritesOpenly.exists_normalize (allow : Bool) (h : WritesOpenly text tags) : ∃ others,
    Writes (normalize allow text) others [] ∧ others.map LooseTag.names =
    tags.map LooseTag.names := by
  have hfree : ∀ {others : List LooseTag}, others.map LooseTag.names = tags.map LooseTag.names →
      ∀ tag ∈ others, ∀ name ∈ tag.names, '&' ∉ name := by
    intro others hothers tag htag
    obtain ⟨old, hold, hnames⟩ := List.mem_map.mp (hothers ▸ List.mem_map_of_mem htag)
    exact hnames ▸ h.not_mem_names old hold
  obtain ⟨result, normal, hyields, hnormal, hnames, -⟩ := h.exists_yields allow
  obtain ⟨numbered, hnumbered, hnames'⟩ := hnormal.of_sameBesidesReferences (hfree hnames)
    (sameBesidesReferences_replace (fun _ _ => rewritesReference_named) result)
  obtain ⟨others, hothers, hnames''⟩ := hnumbered.of_sameBesidesReferences
    (hfree (hnames'.trans hnames))
    (sameBesidesReferences_replace (fun _ _ => rewritesReference_loose)
      (namedReference.replace numberedReference result))
  refine ⟨others, ?_, hnames''.trans (hnames'.trans hnames)⟩
  rwa [normalize, hyields.replace trivial]

/-- The start tags of a page, the sections of which may hold anything. -/
inductive WritesPage : Text → List LooseTag → Prop where
  | last {text : Text} {tags : List LooseTag} (hsection : ¬ sectionOpening <:+: text)
      (h : WritesOpenly text tags) :
      WritesPage text tags
  | sectioned {gap content text : Text} {tags others : List LooseTag}
      (hsection : ¬ sectionOpening <:+: gap)
      (hgap : WritesOpenly gap tags) (hcontent : IsWhole content) (h : WritesPage text others) :
      WritesPage (gap ++ (sectionSource content ++ text)) (tags ++ others)

theorem Writes.append_bracket (more : Text) (h : Writes text tags rest) :
    Writes (text ++ '<' :: more) tags (rest ++ '<' :: more) := by
  induction h with
  | done rest => exact .done _
  | char hc _ ih => exact .char hc ih
  | closing _ ih => exact .closing ih
  | declaration hcomment hsection _ ih =>
    exact .declaration (fun hbegins => hcomment (Text.isPrefix_stop (by decide) hbegins))
      (fun hbegins => hsection (Text.isPrefix_stop (by decide) hbegins)) ih
  | covered cover hbody _ ih =>
    simp only [List.append_assoc]
    exact .covered cover hbody ih
  | opening htag _ ih =>
    rw [List.append_assoc]
    exact .opening htag ih

theorem holds_of_isWhole (h : IsWhole content) : Cover.verbatim.Holds content := by
  intro inner hinner hne
  have hwhole : IsWhole inner := fun hmark => h (hmark.trans hinner.isInfix)
  have hmark := hwhole.not_isPrefix hne []
  rwa [List.append_nil] at hmark

theorem Writes.append_section (hcontent : IsWhole content) (h : Writes gap tags [])
    (hrest : Writes text others []) :
    Writes (gap ++ (sectionSource content ++ text)) (tags ++ others) [] := by
  have hcovered := Writes.covered .verbatim (holds_of_isWhole hcontent) hrest
  have hsource : sectionSource content ++ text = sectionOpening ++
    (content ++ (sectionClosing ++ text)) := by
    simp only [sectionSource, List.append_assoc]
  rw [hsource]
  exact (h.append_bracket _).append hcovered

theorem quiet_section (h : ¬ sectionOpening <:+: text) (hrest : ∀ c ∈ rest.head?, c = '<') :
    Quiet sectionPattern before text rest := by
  refine quiet_of_not_isInfix matchAt_section_of_not_isPrefix h fun c hc => ?_
  rw [hrest c hc]
  decide

/-- Outside of its sections a page is written in normal form, stretch by stretch. -/
theorem WritesPage.exists_scans (allow : Bool) (h : WritesPage text tags) (before : Option Char) :
    ∃ pieces after others, Scans sectionPattern (fun piece => [piece]) (between before text) pieces
      (between after []) ∧
      others.map LooseTag.names = tags.map LooseTag.names ∧
        let left := pieces.foldr (betweenStep (normalize allow)) ([], [])
        Writes (normalize allow left.1 ++ left.2) others [] := by
  have hplain : ∀ text gap done : Text, (text.map Piece.plain).foldr (betweenStep (normalize allow))
    (gap, done) =
      (text ++ gap, done) := foldr_plain fun _ _ _ => rfl
  induction h generalizing before with
  | @last text tags hsection h =>
    obtain ⟨others, hwrites, hnames⟩ := h.exists_normalize allow
    have hscan :=
      (quiet_section hsection (by rintro c ⟨⟩) : Quiet sectionPattern before text []).scans
      fun piece => [piece]
    rw [List.append_nil, ← List.map_eq_flatMap] at hscan
    refine ⟨_, _, others, hscan, hnames, ?_⟩
    simpa only [hplain, List.append_nil] using hwrites
  | @sectioned gap content text tags others hsection hgap hcontent _ ih =>
    obtain ⟨front, hfront, hfrontNames⟩ := hgap.exists_normalize allow
    obtain ⟨hit, middle, hmatch, hstop, htext⟩ := matchAt_section hcontent (behind before gap) text
    obtain ⟨pieces, after, back, hscan, hbackNames, hback⟩ := ih middle
    have hquiet : Quiet sectionPattern before gap (sectionSource content ++ text) :=
      quiet_section hsection (by rintro c ⟨⟩; rfl)
    have hgapScan := hquiet.scans fun piece => [piece]
    have hlt : hit.stop.left <
      (between (behind before gap) (sectionSource content ++ text)).left := by
      have hpos : 0 < (sectionSource content).length :=
        List.length_pos_iff.mpr (by simp [sectionSource, closing_eq])
      simp only [hstop, between_left, List.length_append]
      omega
    rw [← hstop] at hscan
    rw [← List.map_eq_flatMap] at hgapScan
    refine ⟨gap.map Piece.plain ++ .matched hit :: pieces, after, front ++ back,
      hgapScan.append (.matched hmatch hlt hscan), ?_, ?_⟩
    · rw [List.map_append, List.map_append, hfrontNames, hbackNames]
    · have hstep : ∀ left : Text × Text, betweenStep (normalize allow) (.matched hit) left =
          ([], sectionSource content ++ (normalize allow left.1 ++ left.2)) := by
        intro left
        rw [betweenStep, htext, List.append_assoc]
      rw [List.foldr_append, List.foldr_cons, hstep, hplain, List.append_nil]
      exact hfront.append_section hcontent hback

theorem WritesPage.exists_normalize (allow : Bool) (h : WritesPage text tags) : ∃ others,
    Writes (normalizeOutsideSections allow text) others [] ∧ others.map LooseTag.names =
    tags.map LooseTag.names := by
  obtain ⟨pieces, after, others, hscan, hnames, hwrites⟩ := h.exists_scans allow none
  have hpieces := hscan.pieces
  rw [List.flatMap_singleton'] at hpieces
  refine ⟨others, ?_, hnames⟩
  rwa [normalizeOutsideSections, changeBetween_eq, hpieces]

theorem KeepsNames.of_isLike (h : KeepsNames other head) (hlike : tag.IsLike other) :
    KeepsNames tag head :=
  ⟨h.name.trans hlike.1.symm, h.attributes.trans hlike.2.symm, h.distinct, h.agree⟩

theorem keepsNames_of_isLike {heads : List Head} (hlike : List.Forall₂ LooseTag.IsLike tags others)
    (h : List.Forall₂ KeepsNames others heads) : List.Forall₂ KeepsNames tags heads := by
  induction hlike generalizing heads with
  | nil => exact h
  | cons htag _ ih =>
    cases h with
    | cons hhead hheads => exact .cons (hhead.of_isLike htag) (ih hheads)

/-- The elements of a tree are named as the start tags of its page are, in the order of the page,
and so are their attributes but for declarations, when each namespace has one qualifier. -/
theorem build_keepsNames (hbuild : build config text = .ok tree)
    (hsource : WritesPage (wrapOpaque config.opaqueTags (Text.trim (withoutMarks text))) tags)
    (hflat : Xml.HasFlatDoctype (prepare config text))
    (hplain : DeclaresPlainly (prepare config text)) :
    List.Forall₂ KeepsNames tags tree.heads := by
  obtain ⟨declared, hdeclared, hbracket, hkeeps⟩ := build_namesOfPrepared hbuild hflat hplain
  obtain ⟨normal, hnormal, hlike⟩ := Writes.of_declareQualifiers hbracket hdeclared
  obtain ⟨others, hothers, hnames⟩ := hsource.exists_normalize config.allowBooleanAttributes
  obtain rfl := hnormal.unique hothers
  have htags : List.Forall₂ LooseTag.IsLike tags normal := by
    rw [← List.forall₂_eq_eq_eq, List.forall₂_map_left_iff, List.forall₂_map_right_iff] at hnames
    exact hnames.flip.imp fun tag other hsame => .of_names hsame.symm
  exact keepsNames_of_isLike htags (keepsNames_of_isLike hlike hkeeps)

/-- A page with a qualifier that it declares and one that it does not. -/
def gridPage : Text := "<apex:page xmlns:a=\"u\"><a:cell b=\"1\"/></apex:page>".toList

def gridRoot : LooseTag := (Head.mk "apex:page".toList [⟨"xmlns:a".toList, "u".toList⟩]).loose false

def gridCell : LooseTag := (Head.mk "a:cell".toList [⟨"b".toList, "1".toList⟩]).loose true

theorem build_gridPage : ∃ tree, build Config.standard gridPage = .ok tree ∧
    List.Forall₂ KeepsNames [gridRoot, gridCell] tree.heads := by
  let ending := "apex:page>".toList
  let declared :=
    (Head.mk "apex:page".toList [⟨"xmlns:apex".toList, "urn:apex".toList⟩,
    ⟨"xmlns:a".toList, "u".toList⟩]).loose false
  obtain ⟨tree, hbuild⟩ : ∃ tree, build Config.standard gridPage = .ok tree := by
    have hok : (build Config.standard gridPage).toOption.isSome := by decide +kernel
    cases hbuild : build Config.standard gridPage with
    | error fault => simp [hbuild, Except.toOption] at hok
    | ok tree => exact ⟨tree, rfl⟩
  have hloose : ∀ (head : Head) (closes : Bool), isTagName head.tag → (∀ attr ∈ head.attributes,
      (attr.name ≠ [] ∧ ∀ c ∈ attr.name, isLooseNameChar c) ∧ '"' ∉ attr.value) →
      (head.loose closes).IsLoose :=
    fun head closes htag hattributes => head.isLoose_loose htag
      (fun attr hattr => attr.isLoose_loose (hattributes attr hattr).1 (hattributes attr hattr).2)
        closes
  have hroot : gridRoot.IsLoose := hloose _ _ (by decide) (by decide)
  have hcell : gridCell.IsLoose := hloose _ _ (by decide) (by decide)
  have hdeclared : declared.IsLoose := hloose _ _ (by decide) (by decide)
  have hsource :
    WritesPage (wrapOpaque Config.standard.opaqueTags (Text.trim (withoutMarks gridPage)))
    [gridRoot, gridCell] := by
    have hsame : wrapOpaque Config.standard.opaqueTags (Text.trim (withoutMarks gridPage)) =
        gridRoot.source ++ (gridCell.source ++ '<' :: '/' :: ending) := by decide +kernel
    rw [hsame]
    exact .last (by decide +kernel)
      (.tag hroot (by decide) (.tag hcell (by decide) (.closing (.of_not_mem (by decide)))))
  have hprepared : prepare Config.standard gridPage = declared.source ++
    (gridCell.source ++ '<' :: '/' :: (ending ++ [])) := by
    decide +kernel
  have hwrites : Writes (prepare Config.standard gridPage) [declared, gridCell] [] := by
    rw [hprepared]
    exact .opening hdeclared.isWritten
      (.opening hcell.isWritten (.closing (.chars (by decide) (.done []))))
  have hflat : Xml.HasFlatDoctype (prepare Config.standard gridPage) := by
    intro inside _ _ hsuffix
    have hnone : ¬ "<!DOCTYPE".toList <:+: prepare Config.standard gridPage := by decide +kernel
    exact absurd ((List.prefix_append _ inside).isInfix.trans hsuffix.isInfix) hnone
  have hplain : DeclaresPlainly (prepare Config.standard gridPage) := by
    have hdeclarations : declarations (prepare Config.standard gridPage) =
        [("apex".toList, "urn:apex".toList), ("a".toList, "u".toList)] := by decide +kernel
    refine ⟨?_, fun tags htags => ?_, fun tags htags => ?_⟩
    · rw [hdeclarations]
      decide
    · rw [hdeclarations, htags.unique hwrites]
      unfold Xml.IsLiteral
      decide
    · rw [hdeclarations, htags.unique hwrites]
      decide
  exact ⟨tree, hbuild, build_keepsNames hbuild hsource hflat hplain⟩

/-- An attribute with the qualifier that is never declared, and one with the same name and without
it. -/
def languagePage : Text := "<apex:page xml:lang=\"en\" lang=\"de\"/>".toList

/-- That qualifier is dropped. Two attributes have one name then, and the map of the attributes has
the value of the other one. -/
theorem build_languagePage : (build Config.standard languagePage).toOption.map (fun tree =>
      (tree.head.attributes.map (·.name), tree.head.get? "lang".toList,
        tree.head.attributeMap.get? "lang".toList)) =
    some (["lang".toList, "lang".toList], some "en".toList, some "de".toList) := by
  decide +kernel

end Visualforce.Markup
