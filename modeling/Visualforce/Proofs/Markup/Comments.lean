import Visualforce.Proofs.Markup.Visible
import Visualforce.Proofs.Pattern.Leads
import Visualforce.Proofs.Text.Piece

/-! # Comments

A comment lasts from its opening to the first closing behind it. A text without its comments is
found from the text alone when none of them is left open, or when nothing behind the text can close
it.
-/
namespace Visualforce.Markup
open Pattern Cursor

variable {body text rest : Text} {before : Option Char}

def commentOpening : Text := "<!--".toList

def commentClosing : Text := "-->".toList

def commentSource (body : Text) : Text := commentOpening ++ (body ++ commentClosing)

def uncommented (text : Text) : Text := commentPattern.replace (fun _ => []) text

/-- What lies behind the last of some hits in a text. -/
def behindHits (hits : List (Hit Unit)) (text : Text) : Text :=
  hits.foldl (fun _ hit => hit.stop.rest) text

def afterComments (text : Text) : Text := behindHits (commentPattern.hits text) text

theorem commentPattern_eq :
    commentPattern = exactly commentOpening ++ starLazy anyChar ++ exactly commentClosing := rfl

theorem run_comment (h : ¬ commentClosing <:+: body) (before : Option Char) (rest : Text) :
    commentPattern.run ⟨between before (commentSource body ++ rest), []⟩ some =
      some ⟨between (some '>') rest, []⟩ := by
  have hsource : commentSource body ++ rest = commentOpening ++
    (body ++ (commentClosing ++ rest)) := by
    simp [commentSource]
  rw [hsource, commentPattern_eq, run_append, run_append, run_exactly_append]
  refine run_starLazyOne (fun _ _ => rfl) ?_ (run_exactly_append _ _)
  rintro first c second rfl
  refine run_exactly_of_not_isPrefix
    (Text.not_isPrefix_append_mark (by decide) ?_ (List.cons_ne_nil c second) rest)
  exact fun hmem => h (hmem.trans (List.suffix_append first (c :: second)).isInfix)

theorem matchAt_comment (h : ¬ commentClosing <:+: body) (before : Option Char) (rest : Text) :
    ∃ hit, commentPattern.matchAt (between before (commentSource body ++ rest)) = some hit ∧
      hit.stop = between (some '>') rest :=
  ⟨⟨_, between (some '>') rest, []⟩, by rw [matchAt, run_comment h]; rfl, rfl⟩

theorem matchAt_comment_of_not_isPrefix (h : ¬ commentOpening <+: text) :
    commentPattern.matchAt (between before text) = none := by
  rw [matchAt, commentPattern_eq, run_append, run_append, run_exactly_of_not_isPrefix h]
  rfl

theorem matchAt_comment_of_not_isInfix (h : ¬ commentClosing <:+: text) :
    commentPattern.matchAt (between before (commentOpening ++ text)) = none := by
  rw [matchAt, commentPattern_eq, run_append, run_append, run_exactly_append, anyChar,
    run_starLazyOne_none]
  · rfl
  · rintro passed left rfl -
    refine run_exactly_of_not_isPrefix fun hmark => h ?_
    exact hmark.isInfix.trans (List.suffix_append passed left).isInfix

theorem exists_of_matchAt_comment {here : Cursor} {hit : Hit Unit}
    (h : commentPattern.matchAt here = some hit) : ∃ body left, ¬ commentClosing <:+: body ∧
      here.rest = commentSource body ++ left ∧ hit.stop = between (some '>') left := by
  rw [eq_between here] at h
  by_cases hopening : commentOpening <+: here.rest
  · obtain ⟨inner, hinner⟩ := hopening
    rw [← hinner] at h ⊢
    by_cases hclosing : commentClosing <:+: inner
    · obtain ⟨body, left, rfl, hbody⟩ := Text.exists_first_isInfix (by decide) hclosing
      have hsource : commentOpening ++ (body ++ (commentClosing ++ left)) = commentSource body ++
        left := by
        simp [commentSource]
      obtain ⟨found, hfound, hstop⟩ := matchAt_comment hbody here.before left
      rw [hsource, hfound] at h
      exact ⟨body, left, hbody, hsource, Option.some.inj h ▸ hstop⟩
    · rw [matchAt_comment_of_not_isInfix hclosing] at h
      cases h
  · rw [matchAt_comment_of_not_isPrefix hopening] at h
    cases h

theorem left_lt_of_matchAt_comment {here : Cursor} {hit : Hit Unit}
    (h : commentPattern.matchAt here = some hit) : hit.stop.left < here.left := by
  obtain ⟨body, left, -, hrest, hstop⟩ := exists_of_matchAt_comment h
  have hlength : commentOpening.length = 4 := rfl
  rw [hstop, here.left_eq, hrest, between_left]
  simp only [commentSource, List.length_append]
  omega

/-- A text without an opening has no comment, whatever tag stands behind it. -/
theorem quiet_comment (h : ¬ commentOpening <:+: text) (rest : Text) :
    Quiet commentPattern before text ('<' :: rest) := by
  refine quiet_of_not_isInfix (fun _ _ => matchAt_comment_of_not_isPrefix) h ?_
  rintro c ⟨⟩
  decide

theorem exists_of_mem_scans {here there : Cursor} {pieces : List (Piece Unit)} {hit : Hit Unit}
    (h : Scans commentPattern (fun piece => [piece]) here pieces there)
    (hmem : hit ∈ pieces.filterMap Piece.hit?) :
    ∃ place : Cursor, place.rest <:+ here.rest ∧ commentPattern.matchAt place = some hit := by
  induction h with
  | done => cases hmem
  | plain hnext _ _ ih =>
    obtain ⟨place, hplace, hmatch⟩ := ih hmem
    exact ⟨place, hplace.trans (rest_of_next? hnext ▸ List.suffix_cons _ _), hmatch⟩
  | @matched here there found pieces hmatch _ _ ih =>
    rcases List.mem_cons.mp hmem with rfl | hmem
    · exact ⟨here, List.suffix_refl _, hmatch⟩
    · obtain ⟨place, hplace, hmatch'⟩ := ih hmem
      exact ⟨place, hplace.trans (leads_of_matchAt hmatch).2.rest_suffix, hmatch'⟩

theorem hits_of_open {here there : Cursor} {pieces : List (Piece Unit)} {inner : Text}
    (h : Scans commentPattern (fun piece => [piece]) here pieces there)
    (hrest : here.rest = commentOpening ++ inner) (hinner : ¬ commentClosing <:+: inner) :
    pieces.filterMap Piece.hit? = [] := by
  refine List.eq_nil_iff_forall_not_mem.mpr fun hit hmem => ?_
  obtain ⟨place, hplace, hmatch⟩ := exists_of_mem_scans h hmem
  obtain ⟨body, left, -, hcomment, -⟩ := exists_of_matchAt_comment hmatch
  have hclosing : commentClosing <:+: place.rest.drop 4 := by
    refine ⟨body, left, ?_⟩
    rw [hcomment]
    simp [commentSource, commentOpening]
  have hdrop : place.rest.drop 4 <:+ inner := by
    refine List.suffix_of_suffix_length_le ((List.drop_suffix 4 _).trans hplace)
      (hrest ▸ List.suffix_append commentOpening inner) ?_
    have hle := hplace.length_le
    have hlength : commentOpening.length = 4 := rfl
    rw [hrest, List.length_append, hlength] at hle
    rw [List.length_drop]
    omega
  exact hinner (hclosing.trans hdrop.isInfix)

/-- Where no comment begins in a text, none begins there in front of a tag that nothing closes it
behind. -/
theorem matchAt_comment_append {c : Char}
    (hmatch : commentPattern.matchAt (between before (c :: text)) = none)
    (hopen : ∀ inner, c :: text = commentOpening ++ inner → ¬ commentClosing <:+: inner →
      ¬ commentClosing <:+: rest) (other : Option Char) :
    commentPattern.matchAt (between other (c :: (text ++ '<' :: rest))) = none := by
  by_cases hopening : commentOpening <+: c :: text
  · obtain ⟨inner, hinner⟩ := hopening
    have hnone : ¬ commentClosing <:+: inner := by
      intro hclosing
      obtain ⟨body, left, rfl, hbody⟩ := Text.exists_first_isInfix (by decide) hclosing
      obtain ⟨hit, hhit, -⟩ := matchAt_comment hbody before left
      rw [← hinner] at hmatch
      simp only [commentSource, List.append_assoc] at hhit
      rw [hhit] at hmatch
      cases hmatch
    rw [← List.cons_append, ← hinner, List.append_assoc]
    refine matchAt_comment_of_not_isInfix fun hclosing => ?_
    rcases Text.isInfix_append_cons (by decide) hclosing with hclosing | hclosing
    · exact hnone hclosing
    · exact hopen inner hinner.symm hnone hclosing
  · exact matchAt_comment_of_not_isPrefix
      (Text.not_isPrefix_append hopening (List.cons_ne_nil c text) (by rintro d ⟨⟩; decide))

theorem scans_comments_append {here there : Cursor} {pieces : List (Piece Unit)}
    (h : Scans commentPattern (fun piece => [piece]) here pieces there) (hend : there.rest = [])
    (hsuffix : here.rest <:+ text)
    (hopen : ¬ commentOpening <:+: behindHits (pieces.filterMap Piece.hit?) text ∨
    ¬ commentClosing <:+: rest)
    (before : Option Char) : ∃ after,
      Scans commentPattern (written fun _ => []) (between before (here.rest ++ '<' :: rest))
        (pieces.flatMap (written fun _ => [])) (between after ('<' :: rest)) := by
  induction h generalizing before text with
  | done here =>
    rw [hend]
    exact ⟨before, .done _⟩
  | @plain here next there c pieces hnext hmatch hscan ih =>
    have hrest := rest_of_next? hnext
    obtain ⟨after, hafter⟩ := ih hend ((hrest ▸ List.suffix_cons c next.rest).trans hsuffix) hopen
      (some c)
    rw [hrest] at hsuffix ⊢
    refine ⟨after, .plain (next?_between_cons ..) ?_ hafter⟩
    rw [eq_between here, hrest] at hmatch
    refine matchAt_comment_append hmatch (fun inner hinner hnone => hopen.resolve_left fun hopen =>
      hopen ?_) before
    have hhits := hits_of_open (.plain hnext (by rwa [eq_between here, hrest]) hscan)
      (hrest.trans hinner) hnone
    rw [hhits]
    exact (hinner ▸ List.prefix_append commentOpening inner).isInfix.trans hsuffix.isInfix
  | @matched here there hit pieces hmatch hlt hscan ih =>
    obtain ⟨body, left, hbody, hrest, hstop⟩ := exists_of_matchAt_comment hmatch
    obtain ⟨found, hfound, hfoundStop⟩ := matchAt_comment hbody before (left ++ '<' :: rest)
    obtain ⟨after, hafter⟩ := ih hend (List.suffix_refl _) hopen (some '>')
    rw [hstop, between_rest, ← hfoundStop] at hafter
    have hscan := Scans.matched hfound (left_lt_of_matchAt_comment hfound) hafter
    rw [hrest, List.append_assoc]
    exact ⟨after, hscan⟩

/-- In front of a tag a text is left without its comments when none of them reaches over the tag. -/
theorem scans_uncommented (hopen : ¬ commentOpening <:+: afterComments text ∨ ¬ commentClosing <:+:
    rest)
    (before : Option Char) : ∃ after, Scans commentPattern (written fun _ => [])
      (between before (text ++ '<' :: rest)) (uncommented text) (between after ('<' :: rest)) := by
  obtain ⟨pieces, last, hscan⟩ := exists_scans (fun _ _ => left_lt_of_matchAt_comment)
    (fun piece => [piece]) (between none text)
  have hpieces := hscan.pieces
  rw [List.flatMap_singleton'] at hpieces
  rw [uncommented, replace_eq, hpieces]
  refine scans_comments_append hscan rfl (List.suffix_refl _) ?_ before
  rwa [← hpieces]

end Visualforce.Markup
