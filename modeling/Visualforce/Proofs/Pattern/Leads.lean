import Visualforce.Proofs.Pattern.Scan

/-! # What a match passes

A run that succeeds has gone on at some place that its pattern leads to. To which places a pattern
leads does not depend on the order in which its alternatives are tried, so this tells what every
match is made of.
-/
namespace Visualforce

theorem Cursor.spanTo_text_of_rest {here there : Cursor} {passed : Text}
    (h : here.rest = passed ++ there.rest) : (here.spanTo there).text = passed := by
  rw [Cursor.spanTo, Span.text, here.left_eq, there.left_eq, h, List.length_append,
    Nat.add_sub_cancel, List.take_left]

namespace Pattern
open Cursor

variable {κ : Type} {pattern first second item body : Pattern κ} {here middle there last : Place κ}
variable {accepts : Char → Bool}

/-- From the first place the pattern can be passed up to the second one. -/
inductive Leads : Pattern κ → Place κ → Place κ → Prop where
  | empty (here : Place κ) : Leads empty here here
  | one {accepts : Char → Bool} {here : Place κ} {c : Char} {next : Cursor}
      (hnext : here.cursor.next? = some (c, next)) (hc : accepts c) :
      Leads (one accepts) here ⟨next, here.groups⟩
  | seq {first second : Pattern κ} {here middle there : Place κ} (hfirst : Leads first here middle)
      (hsecond : Leads second middle there) : Leads (seq first second) here there
  | left {first : Pattern κ} (second : Pattern κ) {here there : Place κ}
      (h : Leads first here there) :
      Leads (alt first second) here there
  | right (first : Pattern κ) {second : Pattern κ} {here there : Place κ}
      (h : Leads second here there) :
      Leads (alt first second) here there
  | stop (greedy : Bool) (item : Pattern κ) (here : Place κ) : Leads (many greedy item) here here
  | step {greedy : Bool} {item : Pattern κ} {here middle there : Place κ}
      (hitem : Leads item here middle) (hrest : Leads (many greedy item) middle there) :
      Leads (many greedy item) here there
  | sweep (accepts : Char → Bool) (here : Place κ) :
      Leads (sweep accepts) here ⟨skipAll accepts here.cursor.left here.cursor, here.groups⟩
  | group (key : κ) {body : Pattern κ} {here there : Place κ} (hbody : Leads body here there) :
      Leads (group key body) here
        ⟨there.cursor, (key, here.cursor.spanTo there.cursor) :: there.groups⟩
  | guard {holds : Cursor → Bool} {here : Place κ} (h : holds here.cursor) :
      Leads (guard holds) here here

/-- Every station of a repetition is reached by units. -/
theorem leads_of_mem_stations {greedy : Bool} {step : Place κ → Option (Place κ)}
    (hstep : ∀ {here next}, step here = some next → Leads item here next) {n : Nat}
    {passed : List (Place κ)} (hpassed : ∀ place ∈ passed, Leads (many greedy item) here place)
    (hmiddle : ∀ {place}, Leads (many greedy item) middle place →
    Leads (many greedy item) here place) :
    ∀ place ∈ stations step n middle passed, Leads (many greedy item) here place := by
  induction n generalizing middle passed with
  | zero => exact List.forall_mem_cons.mpr ⟨hmiddle (.stop _ _ _), hpassed⟩
  | succ n ih =>
    have hall := List.forall_mem_cons.mpr ⟨hmiddle (.stop _ _ _), hpassed⟩
    rw [stations]
    cases hnext : step middle with
    | none => exact hall
    | some next =>
      simp only
      split_ifs
      · exact ih hall fun hrest => hmiddle (.step (hstep hnext) hrest)
      · exact hall

theorem exists_leads_of_shortest {greedy : Bool} {step goOn : Place κ → Option (Place κ)}
    (hstep : ∀ {here next}, step here = some next → Leads item here next) {n : Nat}
    (h : shortest step goOn n here = some last) :
    ∃ there, Leads (many greedy item) here there ∧ goOn there = some last := by
  induction n generalizing here with
  | zero => exact ⟨here, .stop _ _ _, h⟩
  | succ n ih =>
    rw [shortest] at h
    cases hgo : goOn here with
    | some found =>
      rw [hgo] at h
      exact ⟨here, .stop _ _ _, hgo.trans h⟩
    | none =>
      simp only [hgo] at h
      cases hnext : step here with
      | none => simp [hnext] at h
      | some next =>
        simp only [hnext] at h
        split_ifs at h
        obtain ⟨there, hthere, hlast⟩ := ih h
        exact ⟨there, .step (hstep hnext) hthere, hlast⟩

theorem exists_leads {goOn : Place κ → Option (Place κ)} (h : pattern.run here goOn = some last) :
    ∃ there, Leads pattern here there ∧ goOn there = some last := by
  induction pattern generalizing here goOn last with
  | empty => exact ⟨here, .empty here, h⟩
  | one accepts =>
    rw [run] at h
    split at h
    · split_ifs at h with hc
      rename_i hnext
      exact ⟨_, .one hnext hc, h⟩
    · cases h
  | seq first second ihfirst ihsecond =>
    obtain ⟨middle, hfirst, hmiddle⟩ := ihfirst h
    obtain ⟨there, hsecond, hlast⟩ := ihsecond hmiddle
    exact ⟨there, .seq hfirst hsecond, hlast⟩
  | alt first second ihfirst ihsecond =>
    rw [run_alt, Option.or_eq_some_iff] at h
    rcases h with h | ⟨-, h⟩
    · obtain ⟨there, hthere, hlast⟩ := ihfirst h
      exact ⟨there, .left second hthere, hlast⟩
    · obtain ⟨there, hthere, hlast⟩ := ihsecond h
      exact ⟨there, .right first hthere, hlast⟩
  | many greedy item ih =>
    have hstep : ∀ {here next : Place κ}, item.run here some = some next →
      Leads item here next := by
      intro here next hrun
      obtain ⟨there, hthere, hnext⟩ := ih hrun
      exact Option.some.inj hnext ▸ hthere
    cases greedy with
    | true =>
      obtain ⟨there, hmem, hlast⟩ := List.exists_of_findSome?_eq_some h
      exact ⟨there, leads_of_mem_stations hstep (by simp) id there hmem, hlast⟩
    | false => exact exists_leads_of_shortest hstep h
  | sweep accepts => exact ⟨_, .sweep accepts here, h⟩
  | group key body ih =>
    obtain ⟨there, hthere, hlast⟩ := ih h
    exact ⟨_, .group key hthere, hlast⟩
  | guard holds =>
    rw [run_guard] at h
    split_ifs at h with hholds
    exact ⟨here, .guard hholds, h⟩

theorem leads_of_matchAt {here : Cursor} {hit : Hit κ} (h : pattern.matchAt here = some hit) :
    hit.start = here ∧ Leads pattern ⟨here, []⟩ ⟨hit.stop, hit.groups⟩ := by
  rw [matchAt, Option.map_eq_some_iff] at h
  obtain ⟨last, hrun, rfl⟩ := h
  obtain ⟨there, hthere, hlast⟩ := exists_leads hrun
  exact ⟨rfl, Option.some.inj hlast ▸ hthere⟩

theorem leads_append :
    Leads (first ++ second) here there ↔ ∃ middle, Leads first here middle ∧
      Leads second middle there := by
  constructor
  · intro h
    change Leads (seq first second) here there at h
    cases h with
    | seq hfirst hsecond => exact ⟨_, hfirst, hsecond⟩
  · rintro ⟨middle, hfirst, hsecond⟩
    exact .seq hfirst hsecond

theorem leads_maybe : Leads (maybe item) here there ↔ Leads item here there ∨ there = here := by
  constructor
  · intro h
    cases h with
    | left _ h => exact .inl h
    | right _ h =>
      cases h
      exact .inr rfl
  · rintro (h | rfl)
    · exact .left _ h
    · exact .right _ (.empty _)

theorem leads_group {key : κ} : Leads (group key body) here there ↔
    ∃ middle, Leads body here middle ∧
    there = ⟨middle.cursor, (key, here.cursor.spanTo middle.cursor) :: middle.groups⟩ := by
  constructor
  · intro h
    cases h with
    | group _ hbody => exact ⟨_, hbody, rfl⟩
  · rintro ⟨middle, hbody, rfl⟩
    exact .group key hbody

theorem rest_of_next? {here next : Cursor} {c : Char} (h : here.next? = some (c, next)) :
    here.rest = c :: next.rest := by
  rw [eq_between here] at h ⊢
  cases hrest : here.rest with
  | nil => simp [hrest] at h
  | cons d rest =>
    simp only [hrest, next?_between_cons, Option.some.injEq, Prod.mk.injEq] at h
    obtain ⟨rfl, rfl⟩ := h
    rfl

/-- A single character is passed. -/
theorem Leads.one_inv (h : Leads (.one accepts) here there) :
    ∃ c, here.cursor.rest = c :: there.cursor.rest ∧ accepts c ∧ there.groups = here.groups := by
  cases h with
  | one hnext hc => exact ⟨_, rest_of_next? hnext, hc, rfl⟩

theorem Leads.char_inv {c : Char} (h : Leads (char c) here there) :
    here.cursor.rest = c :: there.cursor.rest ∧ there.groups = here.groups := by
  obtain ⟨d, hrest, hd, hgroups⟩ := h.one_inv
  exact ⟨beq_iff_eq.mp hd ▸ hrest, hgroups⟩

theorem Leads.manyOne_inv {greedy : Bool} (h : Leads (many greedy (.one accepts)) here there) :
    ∃ passed, here.cursor.rest = passed ++ there.cursor.rest ∧ (∀ c ∈ passed, accepts c) ∧
      there.groups = here.groups := by
  generalize hpattern : many greedy (Pattern.one accepts) = pattern at h
  induction h with
  | stop => exact ⟨[], rfl, by simp, rfl⟩
  | step hitem _ _ ih =>
    obtain ⟨rfl, rfl⟩ := many.inj hpattern
    obtain ⟨c, hrest, hc, hgroups⟩ := hitem.one_inv
    obtain ⟨passed, hmore, hpassed, hgroups'⟩ := ih rfl
    exact ⟨c :: passed, by rw [hrest, hmore]; rfl, List.forall_mem_cons.mpr ⟨hc, hpassed⟩,
      hgroups'.trans hgroups⟩
  | _ => cases hpattern

/-- Units one after the other pass what each of them passes. -/
theorem Leads.many_units {β : Type} {write : β → Text} {greedy : Bool}
    (hitem : ∀ {here there : Place κ}, Leads item here there → ∃ unit, here.cursor.rest =
    write unit ++ there.cursor.rest)
    (h : Leads (many greedy item) here there) :
    ∃ units : List β, here.cursor.rest = units.flatMap write ++ there.cursor.rest := by
  generalize hpattern : many greedy item = pattern at h
  induction h with
  | stop => exact ⟨[], rfl⟩
  | step hfirst _ _ ih =>
    obtain ⟨rfl, rfl⟩ := many.inj hpattern
    obtain ⟨unit, hunit⟩ := hitem hfirst
    obtain ⟨units, hunits⟩ := ih rfl
    exact ⟨unit :: units, by rw [hunit, hunits, List.flatMap_cons, List.append_assoc]⟩
  | _ => cases hpattern

theorem Leads.plusOne_inv (h : Leads (plus (.one accepts)) here there) :
    ∃ passed, here.cursor.rest = passed ++ there.cursor.rest ∧ passed ≠ [] ∧
      ∀ c ∈ passed, accepts c := by
  obtain ⟨middle, hfirst, hmore⟩ := leads_append.mp h
  obtain ⟨c, hrest, hc, -⟩ := hfirst.one_inv
  obtain ⟨passed, hrest', hpassed, -⟩ := hmore.manyOne_inv
  exact ⟨c :: passed, by rw [hrest, hrest', List.cons_append], List.cons_ne_nil c passed,
    List.forall_mem_cons.mpr ⟨hc, hpassed⟩⟩

theorem Leads.exactly_inv {text : Text} (h : Leads (exactly text) here there) :
    here.cursor.rest = text ++ there.cursor.rest ∧ there.groups = here.groups := by
  induction text generalizing here with
  | nil =>
    cases h
    exact ⟨rfl, rfl⟩
  | cons c text ih =>
    have hcons : (exactly (c :: text) : Pattern κ) = char c ++ exactly text := rfl
    obtain ⟨middle, hc, htext⟩ := leads_append.mp (hcons ▸ h)
    obtain ⟨hrest, hgroups⟩ := hc.char_inv
    obtain ⟨hmore, hgroups'⟩ := ih htext
    exact ⟨by rw [hrest, hmore]; rfl, hgroups'.trans hgroups⟩

theorem reaches_skipAll (accepts : Char → Bool) (n : Nat) (here : Cursor) :
    Reaches here (skipAll accepts n here) := by
  induction n generalizing here with
  | zero => exact .refl here
  | succ n ih =>
    rw [skipAll]
    split
    · rename_i hnext
      split_ifs
      · exact (reaches_of_next? hnext).trans (ih _)
      · exact .refl here
    · exact .refl here

/-- The place that a pattern leads to comes behind what was passed. -/
theorem Leads.reaches (h : Leads pattern here there) : Reaches here.cursor there.cursor := by
  induction h with
  | one hnext _ => exact reaches_of_next? hnext
  | seq _ _ ihfirst ihsecond => exact ihfirst.trans ihsecond
  | step _ _ ihitem ihrest => exact ihitem.trans ihrest
  | left _ _ ih => exact ih
  | right _ _ ih => exact ih
  | group _ _ ih => exact ih
  | sweep accepts here => exact reaches_skipAll accepts _ _
  | _ => exact .refl _

/-- Nothing is passed twice. -/
theorem Leads.rest_suffix (h : Leads pattern here there) :
    there.cursor.rest <:+ here.cursor.rest := by
  obtain ⟨passed, hrest, -⟩ := h.reaches
  exact ⟨passed, hrest.symm⟩

theorem Leads.wordEdge_inv (h : Leads wordEdge here there) :
    there = here ∧ here.cursor.before.any Text.isWord ≠ here.cursor.rest.head?.any Text.isWord := by
  cases h with
  | guard hedge => exact ⟨rfl, bne_iff_ne.mp hedge⟩

/-- The pattern has no groups. -/
def Groupless : Pattern κ → Prop
  | .empty | .one _ | .sweep _ | .guard _ => True
  | .seq first second | .alt first second => Groupless first ∧ Groupless second
  | .many _ item => Groupless item
  | .group _ _ => False

instance Groupless.decidable : (pattern : Pattern κ) → Decidable (Groupless pattern)
  | .empty | .one _ | .sweep _ | .guard _ => .isTrue trivial
  | .seq first second | .alt first second => @instDecidableAnd _ _ (decidable first)
      (decidable second)
  | .many _ item => decidable item
  | .group _ _ => .isFalse id

theorem Leads.groups_eq (h : Leads pattern here there) (hpattern : Groupless pattern) :
    there.groups = here.groups := by
  induction h with
  | seq _ _ ihfirst ihsecond => exact (ihsecond hpattern.2).trans (ihfirst hpattern.1)
  | left _ _ ih => exact ih hpattern.1
  | right _ _ ih => exact ih hpattern.2
  | step _ _ ihitem ihrest => exact (ihrest hpattern).trans (ihitem hpattern)
  | group => exact hpattern.elim
  | _ => rfl

/-- Whatever a group of the pattern matches is of the kind that belongs to its name. -/
def Captures (kind : κ → Text → Prop) : Pattern κ → Prop
  | .empty | .one _ | .sweep _ | .guard _ => True
  | .seq first second | .alt first second => Captures kind first ∧ Captures kind second
  | .many _ item => Captures kind item
  | .group key body => Captures kind body ∧ ∀ ⦃here there : Place κ⦄, Leads body here there →
      kind key (here.cursor.spanTo there.cursor).text

variable {kind : κ → Text → Prop}

theorem captures_exactly (text : Text) : Captures kind (exactly text) := by
  induction text with
  | nil => trivial
  | cons c text ih => exact ⟨trivial, ih⟩

theorem Groupless.captures (h : Groupless pattern) : Captures kind pattern := by
  induction pattern with
  | seq _ _ ihfirst ihsecond => exact ⟨ihfirst h.1, ihsecond h.2⟩
  | alt _ _ ihfirst ihsecond => exact ⟨ihfirst h.1, ihsecond h.2⟩
  | many _ _ ih => exact ih h
  | group => exact h.elim
  | _ => trivial

theorem Captures.of_leads (h : Captures kind pattern) (hleads : Leads pattern here there)
    (hhere : ∀ group ∈ here.groups, kind group.1 group.2.text) :
    ∀ group ∈ there.groups, kind group.1 group.2.text := by
  induction hleads with
  | seq _ _ ihfirst ihsecond => exact ihsecond h.2 (ihfirst h.1 hhere)
  | left _ _ ih => exact ih h.1 hhere
  | right _ _ ih => exact ih h.2 hhere
  | step _ _ ihitem ihrest => exact ihrest h (ihitem h hhere)
  | group key hbody ih => exact List.forall_mem_cons.mpr ⟨h.2 hbody, ih h.1 hhere⟩
  | _ => exact hhere

theorem Captures.group? [BEq κ] [LawfulBEq κ] (h : Captures kind pattern) {start : Cursor}
    {hit : Hit κ}
    (hmatch : pattern.matchAt start = some hit) {key : κ} {text : Text}
    (hgroup : hit.group? key = some text) :
    kind key text := by
  have hall := h.of_leads (leads_of_matchAt hmatch).2 (List.forall_mem_nil _)
  obtain ⟨span, hspan, rfl⟩ := Option.map_eq_some_iff.mp hgroup
  obtain ⟨first, last, hgroups, -⟩ := List.lookup_eq_some_iff.mp hspan
  refine hall (key, span) ?_
  rw [hgroups]
  exact List.mem_append_right _ List.mem_cons_self

/-- A group that took no part has the empty text. -/
theorem Captures.group [BEq κ] [LawfulBEq κ] (h : Captures kind pattern) {start : Cursor}
    {hit : Hit κ}
    (hmatch : pattern.matchAt start = some hit) (key : κ) : hit.group key = [] ∨
    kind key (hit.group key) := by
  rw [Hit.group]
  cases hgroup : hit.group? key with
  | none => exact .inl rfl
  | some text => exact .inr (h.group? hmatch hgroup)

theorem exists_of_matched_mem {n : Nat} {here : Cursor} {found : List (Piece κ)} {hit : Hit κ}
    (h : .matched hit ∈ pattern.piecesFrom n here found) : .matched hit ∈ found ∨
      ∃ there : Cursor, there.rest <:+ here.rest ∧ pattern.matchAt there = some hit := by
  induction n generalizing here found with
  | zero => exact .inl (List.mem_reverse.mp h)
  | succ n ih =>
    rw [piecesFrom] at h
    cases hnext : here.next? with
    | none => exact .inl (List.mem_reverse.mp (by simpa [hnext] using h))
    | some entry =>
      obtain ⟨c, next⟩ := entry
      have hrest : next.rest <:+ here.rest := rest_of_next? hnext ▸ List.suffix_cons _ _
      have hskip : .matched hit ∈ pattern.piecesFrom n next (.plain c :: found) →
          .matched hit ∈ found ∨ ∃ there : Cursor, there.rest <:+ here.rest ∧
            pattern.matchAt there = some hit := by
        intro hmem
        obtain hmem | ⟨there, hthere, hmatch⟩ := ih hmem
        · exact .inl (by simpa using hmem)
        · exact .inr ⟨there, hthere.trans hrest, hmatch⟩
      simp only [hnext] at h
      cases hmatch : pattern.matchAt here with
      | none => exact hskip (by simpa [hmatch] using h)
      | some first =>
        simp only [hmatch] at h
        split_ifs at h
        · obtain hmem | ⟨there, hthere, hmatch'⟩ := ih h
          · rcases List.mem_cons.mp hmem with heq | hmem
            · obtain rfl := Piece.matched.inj heq
              exact .inr ⟨here, List.suffix_refl _, hmatch⟩
            · exact .inl hmem
          · exact .inr ⟨there, hthere.trans (leads_of_matchAt hmatch).2.rest_suffix, hmatch'⟩
        · exact hskip h

theorem Scans.hits_behind {α : Type} {view : Hit κ → α} {text : Text} {values : List α}
    {middle : Cursor}
    (h : Scans pattern (seen view) (between none text) values middle) : ∃ others : List (Hit κ),
      (pattern.hits text).map view = values ++ others.map view ∧ ∀ hit ∈ others, ∃ there : Cursor,
        there.rest <:+ middle.rest ∧ pattern.matchAt there = some hit := by
  obtain ⟨n, -, hpieces⟩ := h.exists_piecesFrom (Nat.le_refl _)
  refine ⟨(pattern.piecesFrom n middle []).filterMap Piece.hit?, ?_, fun hit hmem => ?_⟩
  · rw [map_hits, ← flatMap_seen]
    exact hpieces
  · obtain ⟨piece, hpiece, heq⟩ := List.mem_filterMap.mp hmem
    cases piece with
    | plain c => cases heq
    | matched found =>
      obtain rfl := Option.some.inj heq
      exact (exists_of_matched_mem hpiece).resolve_left (by simp)

theorem exists_matchAt_of_mem_hits {text : Text} {hit : Hit κ} (h : hit ∈ pattern.hits text) :
    ∃ there : Cursor, there.rest <:+ text ∧ pattern.matchAt there = some hit := by
  obtain ⟨others, heq, hothers⟩ :=
    Scans.hits_behind (.done _ : Scans pattern (seen id) (between none text) [] _)
  rw [List.map_id, List.map_id, List.nil_append] at heq
  exact hothers hit (heq ▸ h)

/-- Each character of a hit stands in the text, as far behind its front as the hit begins there. -/
theorem getElem?_of_mem_hits {text : Text} {hit : Hit κ} {i : Nat} {c : Char}
    (h : hit ∈ pattern.hits text)
    (hc : hit.text[i]? = some c) : text[text.length - hit.start.left + i]? = some c := by
  obtain ⟨there, ⟨front, rfl⟩, hmatch⟩ := exists_matchAt_of_mem_hits h
  obtain ⟨rfl, hleads⟩ := leads_of_matchAt hmatch
  obtain ⟨passed, hrest, -⟩ := hleads.reaches
  replace hrest : hit.start.rest = passed ++ hit.stop.rest := hrest
  rw [Hit.text, spanTo_text_of_rest hrest] at hc
  have hplace : (front ++ hit.start.rest).length - hit.start.left = front.length := by
    rw [hit.start.left_eq, List.length_append, Nat.add_sub_cancel]
  rw [hplace, List.getElem?_append_right (Nat.le_add_right _ _), Nat.add_sub_cancel_left, hrest,
    List.getElem?_append_left (List.getElem?_eq_some_iff.mp hc).1]
  exact hc

/-- A scan of the text comes to the place: from the end of a match, or from the beginning, nothing
matches up to there. -/
def Comes (pattern : Pattern κ) (text : Text) (here : Cursor) : Prop :=
  ∃ earlier quiet, text = earlier ++ (quiet ++ here.rest) ∧
    here.before = behind none (earlier ++ quiet) ∧
    Quiet pattern (behind none earlier) quiet here.rest ∧
    (earlier = [] ∨ ∃ hit, Reaches (start text) hit.start ∧ pattern.matchAt hit.start = some hit ∧
      hit.stop = between (behind none earlier) (quiet ++ here.rest))

theorem comes_start (pattern : Pattern κ) (text : Text) : Comes pattern text (start text) :=
  ⟨[], [], rfl, rfl, trivial, .inl rfl⟩

variable {text : Text}

theorem Comes.reaches {here : Cursor} (h : Comes pattern text here) :
    Reaches (start text) here := by
  obtain ⟨earlier, quiet, htext, hbefore, -⟩ := h
  exact ⟨earlier ++ quiet, by rw [List.append_assoc]; exact htext, hbefore⟩

theorem Comes.next {here next : Cursor} {c : Char} (h : Comes pattern text here)
    (hnext : here.next? = some (c, next))
    (hmatch : pattern.matchAt here = none) : Comes pattern text next := by
  obtain ⟨earlier, quiet, htext, hbefore, hquiet, hearlier⟩ := h
  have hrest := rest_of_next? hnext
  obtain ⟨passed, hpassed, hbehind⟩ := reaches_of_next? hnext
  obtain rfl : passed = [c] := by
    rw [hrest, ← List.singleton_append, List.append_cancel_right_eq] at hpassed
    exact hpassed.symm
  have hhere : here = between (behind (behind none earlier) quiet) (c :: ([] ++ next.rest)) := by
    rw [← behind_append, ← hbefore, List.nil_append, ← hrest]
    exact eq_between here
  refine ⟨earlier, quiet ++ [c], ?_, ?_, ?_, ?_⟩
  · rw [htext, hrest, List.append_assoc, List.singleton_append]
  · rw [hbehind, hbefore, ← List.append_assoc, behind_append _ (earlier ++ quiet)]
  · rw [hrest] at hquiet
    refine hquiet.append ⟨?_, trivial⟩
    rw [← hhere]
    exact hmatch
  · rw [List.append_assoc, List.singleton_append, ← hrest]
    exact hearlier

theorem Comes.stop {here : Cursor} {hit : Hit κ} (h : Comes pattern text here)
    (hmatch : pattern.matchAt here = some hit) :
    Comes pattern text hit.stop := by
  obtain ⟨rfl, hleads⟩ := leads_of_matchAt hmatch
  obtain ⟨passed, hrest, hbefore⟩ := h.reaches.trans hleads.reaches
  refine ⟨passed, [], hrest, by rw [List.append_nil]; exact hbefore, trivial, .inr ⟨hit, h.reaches,
    hmatch, ?_⟩⟩
  rw [List.nil_append]
  exact (eq_between hit.stop).trans (congrArg (between · _) hbefore)

theorem Scans.comes {here there : Cursor} {found : List (Hit κ)}
    (h : Scans pattern (seen id) here found there)
    (hcomes : Comes pattern text here) :
    (∀ hit ∈ found, pattern.matchAt hit.start = some hit ∧ Comes pattern text hit.start ∧
      hit.start.left ≤ here.left) ∧ found.Pairwise fun first second => second.start.left ≤
        first.stop.left := by
  induction h with
  | done => exact ⟨List.forall_mem_nil _, .nil⟩
  | plain hnext hmatch _ ih =>
    obtain ⟨hall, hordered⟩ := ih (hcomes.next hnext hmatch)
    have hlt := left_lt_of_next? hnext
    refine ⟨fun hit hhit => ?_, hordered⟩
    obtain ⟨hhit, hcomes, hle⟩ := hall hit hhit
    exact ⟨hhit, hcomes, by omega⟩
  | matched hmatch hlt _ ih =>
    obtain ⟨hall, hordered⟩ := ih (hcomes.stop hmatch)
    obtain ⟨rfl, -⟩ := leads_of_matchAt hmatch
    refine ⟨List.forall_mem_cons.mpr ⟨⟨hmatch, hcomes, Nat.le_refl _⟩, fun hit hhit => ?_⟩, ?_⟩
    · obtain ⟨hhit, hcomes, hle⟩ := hall hit hhit
      exact ⟨hhit, hcomes, by omega⟩
    · exact .cons (fun hit hhit => (hall hit hhit).2.2) hordered

theorem hits_comes (hlt : ∀ ⦃here hit⦄, pattern.matchAt here = some hit → hit.stop.left < here.left)
    (text : Text) :
    (∀ hit ∈ pattern.hits text, pattern.matchAt hit.start = some hit ∧
      Comes pattern text hit.start) ∧
      (pattern.hits text).Pairwise fun first second => second.start.left ≤ first.stop.left := by
  obtain ⟨found, before, hscan⟩ := exists_scans hlt (seen id) (start text)
  have hfound : pattern.hits text = found := by
    rw [← hscan.hits, List.map_id]
  obtain ⟨hall, hordered⟩ := hscan.comes (comes_start pattern text)
  rw [hfound]
  exact ⟨fun hit hhit => ⟨(hall hit hhit).1, (hall hit hhit).2.1⟩, hordered⟩

/-- A match that is found begins behind what was passed. -/
theorem reaches_of_searchWithin {n : Nat} {here : Cursor} {hit : Hit κ}
    (h : pattern.searchWithin n here = some hit) :
    Reaches here hit.start ∧ pattern.matchAt hit.start = some hit := by
  induction n generalizing here with
  | zero =>
    obtain ⟨rfl, -⟩ := leads_of_matchAt h
    exact ⟨.refl _, h⟩
  | succ n ih =>
    rw [searchWithin] at h
    split at h
    · rename_i found hmatch
      obtain rfl := Option.some.inj h
      obtain ⟨rfl, -⟩ := leads_of_matchAt hmatch
      exact ⟨.refl _, hmatch⟩
    · split at h
      · rename_i hnext
        obtain ⟨hreaches, hmatch⟩ := ih h
        exact ⟨(reaches_of_next? hnext).trans hreaches, hmatch⟩
      · cases h

theorem occursIn_iff {text : Text} : pattern.occursIn text = true ↔ ∃ front rest, text = front ++
    rest ∧
    pattern.matchAt (between (behind none front) rest) ≠ none := by
  rw [occursIn, Option.isSome_iff_ne_none]
  constructor
  · intro h
    obtain ⟨hit, hhit⟩ := Option.ne_none_iff_exists'.mp h
    obtain ⟨⟨front, htext, hbefore⟩, hmatch⟩ := reaches_of_searchWithin hhit
    refine ⟨front, hit.start.rest, htext, ?_⟩
    have hstart : between (behind none front) hit.start.rest = hit.start :=
      (congrArg (between · _) hbefore.symm).trans (eq_between _).symm
    rw [hstart, hmatch]
    exact Option.some_ne_none hit
  · rintro ⟨front, rest, rfl, hmatch⟩ hnone
    exact hmatch (matchAt_of_searchFrom hnone)

end Pattern
end Visualforce
