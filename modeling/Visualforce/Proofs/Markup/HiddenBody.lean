import Visualforce.Proofs.Markup.Around
import Visualforce.Proofs.Markup.Comments
import Visualforce.Proofs.Pattern.Keyword

/-! # Hidden bodies

What is visible of a text leaves out its comments first and then the bodies of opaque elements, each
up to the first end tag of any of them. So the body of an opaque element is hidden when no comment
in it reaches over its end and no such end tag is left in it without its comments.
-/
namespace Visualforce.Markup
open Pattern Cursor
open Text (somewhere EndsAt dropWhile_stop)

variable {name text body first last rest : Text} {before : Option Char}

/-- Whether a start tag begins here, at a word that is the name up to case. -/
def beginsTag (name : Text) : Text → Bool
  | '<' :: rest => beginsWithName name rest &&
      (between (behind (some '<') (rest.take name.length)) (rest.drop name.length)).atWordEdge
  | _ => false

/-- Whether a whole end tag stands here. -/
def beginsEndTag (name : Text) : Text → Bool
  | '<' :: '/' :: rest => beginsWithName name rest &&
      ((rest.drop name.length).dropWhile Text.isBlank).head? == some '>'
  | _ => false

theorem length_le_of_beginsWithName (h : beginsWithName name text) : name.length ≤ text.length := by
  induction name generalizing text with
  | nil => exact Nat.zero_le _
  | cons c name ih =>
    cases text with
    | nil => cases h
    | cons d text =>
      rw [beginsWithName, Bool.and_eq_true] at h
      exact Nat.succ_le_succ (ih h.2)

theorem beginsTag_iff : beginsTag name text ↔ ∃ rest, text = '<' :: rest ∧
    beginsWithName name rest ∧
    (between (behind (some '<') (rest.take name.length)) (rest.drop name.length)).atWordEdge := by
  constructor
  · intro h
    rw [beginsTag.eq_def] at h
    split at h
    · exact ⟨_, rfl, Bool.and_eq_true_iff.mp h⟩
    · cases h
  · rintro ⟨rest, rfl, h⟩
    exact Bool.and_eq_true_iff.mpr h

theorem beginsEndTag_iff : beginsEndTag name text ↔ ∃ rest, text = '<' :: '/' :: rest ∧
    beginsWithName name rest ∧
    ((rest.drop name.length).dropWhile Text.isBlank).head? = some '>' := by
  constructor
  · intro h
    rw [beginsEndTag.eq_def] at h
    split at h
    · rw [Bool.and_eq_true, beq_iff_eq] at h
      exact ⟨_, rfl, h⟩
    · cases h
  · rintro ⟨rest, rfl, h⟩
    rw [beginsEndTag, Bool.and_eq_true, beq_iff_eq]
    exact h

theorem length_le_of_beginsWithName_tag (hname : name ∈ Config.standard.opaqueTags)
    (h : beginsWithName name (text ++ '<' :: rest)) : beginsWithName name text ∧
    name.length ≤ text.length := by
  have hc : ∀ d ∈ name, Text.sameUpToCase d '<' = false :=
    fun d hd => (opaqueTags_stop name hname d hd).1
  have hbegins := beginsWithName_stop hc h []
  rw [List.append_nil] at hbegins
  exact ⟨hbegins, length_le_of_beginsWithName hbegins⟩

theorem beginsTag_stop (hname : name ∈ Config.standard.opaqueTags) {c : Char}
    (h : beginsTag name (c :: text ++ '<' :: rest)) : beginsTag name (c :: text) := by
  obtain ⟨after, heq, hbegins, hedge⟩ := beginsTag_iff.mp h
  rw [List.cons_append] at heq
  obtain ⟨rfl, rfl⟩ := List.cons_eq_cons.mp heq
  obtain ⟨hbegins, hle⟩ := length_le_of_beginsWithName_tag hname hbegins
  refine beginsTag_iff.mpr ⟨text, rfl, hbegins, ?_⟩
  have hword : Text.isWord '<' = false := by decide
  rw [List.take_append_of_le_length hle, List.drop_append_of_le_length hle] at hedge
  cases hdrop : text.drop name.length with
  | nil =>
    rw [hdrop] at hedge
    simpa [atWordEdge, hword] using hedge
  | cons d more =>
    rw [hdrop] at hedge
    simpa [atWordEdge] using hedge

theorem endsAt_beginsEndTag (hname : name ∈ Config.standard.opaqueTags) :
    EndsAt (beginsEndTag name) '<' := by
  intro c more rest other h
  obtain ⟨after, heq, hbegins, htail⟩ := beginsEndTag_iff.mp h
  rw [List.cons_append] at heq
  obtain ⟨rfl, htext⟩ := List.cons_eq_cons.mp heq
  cases more with
  | nil => exact absurd (List.cons_eq_cons.mp htext).1 (by decide)
  | cons d more =>
    rw [List.cons_append] at htext
    obtain ⟨rfl, rfl⟩ := List.cons_eq_cons.mp htext
    obtain ⟨hfront, hle⟩ := length_le_of_beginsWithName_tag hname hbegins
    rw [List.drop_append_of_le_length hle] at htail
    obtain ⟨-, hother⟩ := dropWhile_stop (by decide) (by decide) htail
    refine beginsEndTag_iff.mpr ⟨more ++ other, rfl, ?_, ?_⟩
    · exact beginsWithName_stop (fun d hd => (opaqueTags_stop name hname d hd).1) hbegins other
    · rw [List.drop_append_of_le_length hle]
      exact hother other

def opaqueName : Pattern OpaquePart := firstOf (Config.standard.opaqueTags.map caseless)

/-- A name is taken where it begins up to case. -/
theorem run_caseless {groups : List (OpaquePart × Span)}
    {goOn : Place OpaquePart → Option (Place OpaquePart)} :
    (caseless name).run ⟨between before text, groups⟩ goOn =
      if beginsWithName name text then
        goOn ⟨between (behind before (text.take name.length)) (text.drop name.length), groups⟩
      else none := by
  induction name generalizing before text with
  | nil => rfl
  | cons c name ih =>
    have hcons : (caseless (c :: name) : Pattern OpaquePart) = one (Text.sameUpToCase c) ++
      caseless name := rfl
    cases text with
    | nil => rfl
    | cons d text =>
      rw [hcons, run_append, run_one_cons, beginsWithName, ih]
      cases Text.sameUpToCase c d <;> rfl

/-- No two names of opaque elements begin alike. -/
theorem beginsWithName_other :
    ∀ name ∈ Config.standard.opaqueTags, ∀ other ∈ Config.standard.opaqueTags, other ≠ name →
      ∀ rest, beginsWithName other (name ++ rest) = false := by
  refine List.forall_mem_cons.mpr ⟨?_, List.forall_mem_singleton.mpr ?_⟩
  · refine List.forall_mem_cons.mpr ⟨fun h => absurd rfl h, List.forall_mem_singleton.mpr fun _ _ =>
      rfl⟩
  · refine List.forall_mem_cons.mpr ⟨fun _ _ => rfl, List.forall_mem_singleton.mpr fun h =>
      absurd rfl h⟩

theorem takesName_opaqueName (hname : name ∈ Config.standard.opaqueTags) :
    TakesName opaqueName name := by
  intro before rest groups goOn
  rw [opaqueName, run_firstOf, findSome?_eq (List.mem_map_of_mem hname), run_caseless_append]
  refine List.forall_mem_map.mpr fun other hother => ?_
  by_cases heq : other = name
  · exact .inl (heq ▸ rfl)
  · right
    rw [run_caseless, beginsWithName_other name hname other hother heq rest]
    rfl

theorem exists_beginsEndTag_of_leads {here there : Place OpaquePart}
    (h : Leads (literal "</" ++ opaqueName ++ star blank ++ char '>') here there) :
    ∃ name ∈ Config.standard.opaqueTags, beginsEndTag name here.cursor.rest := by
  obtain ⟨behindBlanks, h, hclose⟩ := leads_append.mp h
  obtain ⟨behindName, h, hblanks⟩ := leads_append.mp h
  obtain ⟨behindMark, hmark, hnames⟩ := leads_append.mp h
  obtain ⟨_, hmem, hname⟩ := hnames.firstOf_inv
  obtain ⟨name, hname', rfl⟩ := List.mem_map.mp hmem
  obtain ⟨word, hword, hsame⟩ := hname.caseless_inv
  obtain ⟨blanks, hrest, hall, -⟩ := hblanks.manyOne_inv
  have hmark : here.cursor.rest = '<' :: '/' :: behindMark.cursor.rest := hmark.exactly_inv.1
  refine ⟨name, hname', beginsEndTag_iff.mpr ⟨_, hmark, beginsWithName_of_leads hname, ?_⟩⟩
  rw [hword, hsame.length_eq, List.drop_left, hrest, hclose.char_inv.1,
    List.dropWhile_append_of_pos hall, List.dropWhile_cons_of_neg (by decide), List.head?_cons]

theorem matchAt_opaqueName_none (h : ∀ name ∈ Config.standard.opaqueTags, beginsTag name text =
    false) :
    (opaqueElement opaqueName).matchAt (between before text) = none := by
  by_cases hhead : ∃ rest, text = '<' :: rest
  · obtain ⟨rest, rfl⟩ := hhead
    rw [matchAt, opaqueElement, opaqueOpening, run_append, run_append, run_group, run_append,
      run_append, run_append, run_append, run_append, char, run_one_cons, if_pos (by decide),
      opaqueName, run_firstOf, List.findSome?_eq_none_iff.mpr]
    · rfl
    · refine List.forall_mem_map.mpr fun name hname => ?_
      have hnone := h name hname
      rw [beginsTag, Bool.and_eq_false_iff] at hnone
      rw [run_caseless]
      rcases hnone with hname | hedge
      · rw [hname]
        rfl
      · rw [wordEdge, run_guard, hedge]
        exact ite_self none
  · refine (begins_opaqueElement opaqueName).matchAt fun c hc => beq_false_of_ne ?_
    rintro rfl
    cases text with
    | nil => cases hc
    | cons d rest => exact hhead ⟨rest, congrArg (· :: rest) (Option.some.inj hc)⟩

theorem left_lt_of_matchAt_opaqueElement {names : Pattern OpaquePart} {here : Cursor}
    {hit : Hit OpaquePart}
    (h : (opaqueElement names).matchAt here = some hit) : hit.stop.left < here.left := by
  obtain ⟨_, hfront, hclosing⟩ := leads_append.mp (leads_of_matchAt h).2
  obtain ⟨_, hopening, hbody⟩ := leads_append.mp hfront
  obtain ⟨_, htag, rfl⟩ := leads_group.mp hopening
  obtain ⟨_, hinside, hbracket⟩ := leads_append.mp htag
  have hbefore := hinside.rest_suffix.length_le
  have hafter := (hclosing.rest_suffix.trans hbody.rest_suffix).length_le
  have hcons := congrArg List.length hbracket.char_inv.1
  rw [List.length_cons] at hcons
  rw [hit.stop.left_eq, here.left_eq]
  exact Nat.lt_of_le_of_lt hafter
    (Nat.lt_of_lt_of_le (Nat.lt_of_lt_of_eq (Nat.lt_succ_self _) hcons.symm) hbefore)

structure IsHidden (body last : Text) : Prop where
  ends : ∀ name ∈ Config.standard.opaqueTags, somewhere (beginsEndTag name) (uncommented body) =
    false
  closed : ¬ commentOpening <:+: afterComments body ∨ ¬ commentClosing <:+: last

def IsTagFree (text : Text) : Prop :=
  ∀ name ∈ Config.standard.opaqueTags, somewhere (beginsTag name) text = false

theorem isHidden_nil (last : Text) : IsHidden [] last := ⟨fun _ _ => rfl, .inl (by decide)⟩

theorem IsTagFree.quiet (h : IsTagFree text) (rest : Text) :
    Quiet (opaqueElement opaqueName) before text ('<' :: rest) := by
  induction text generalizing before with
  | nil => trivial
  | cons c text ih =>
    refine ⟨matchAt_opaqueName_none fun name hname => ?_, ih fun name hname => ?_⟩
    · have hnone := h name hname
      rw [somewhere, Bool.or_eq_false_iff] at hnone
      refine Bool.eq_false_iff.mpr fun hbegins => ?_
      rw [beginsTag_stop hname hbegins] at hnone
      exact absurd hnone.1 (by decide)
    · have hnone := h name hname
      rw [somewhere, Bool.or_eq_false_iff] at hnone
      exact hnone.2

section
variable (hname : name ∈ Config.standard.opaqueTags)
include hname

theorem matchAt_hidden (hends : ∀ other ∈ Config.standard.opaqueTags,
    somewhere (beginsEndTag other) body = false)
    (before : Option Char) (rest : Text) : ∃ hit,
      (opaqueElement opaqueName).matchAt (between before (around [name] body ++ rest)) = some hit ∧
        hit.stop = between (some '>') rest ∧
        hit.group .opening ++ hit.group .closing = around [name] [] := by
  have hnone : ∀ c more, c :: more <:+ body → ∀ before groups goOn,
      (literal "</" ++ opaqueName ++ star blank ++ char '>').run
        ⟨between before (c :: more ++ '<' :: '/' :: (name ++ '>' :: rest)), groups⟩ goOn =
          none := by
    intro c more hsuffix before groups goOn
    by_contra hsome
    obtain ⟨place, hplace⟩ := Option.ne_none_iff_exists'.mp hsome
    obtain ⟨there, hleads, -⟩ := exists_leads hplace
    obtain ⟨other, hother, hbegins⟩ := exists_beginsEndTag_of_leads hleads
    have hinside := endsAt_beginsEndTag hother c more _ [] hbegins
    rw [List.append_nil, Text.begins_of_suffix (hends other hother) hsuffix
      (List.cons_ne_nil c more)] at hinside
    cases hinside
  obtain ⟨hit, hmatch, hstop, -, hopening, -, hclosing⟩ :=
    matchAt_elementOf hname (takesName_opaqueName hname) hnone before
  refine ⟨hit, hmatch, hstop, ?_⟩
  rw [hopening, hclosing]
  simp [around]

/-- Without comments an element holds its body without comments. -/
theorem scans_around (hbody : IsHidden body last) (before : Option Char) :
    Scans commentPattern (written fun _ => []) (between before (around [name] body ++ last))
      (around [name] (uncommented body)) (between (some '>') last) := by
  have husable := isUsable_opaqueTags hname
  have hopening : (Token.opening ⟨name, []⟩ false).IsClear := isClear_of_isUsable husable false
  have hclosing : (Token.closing name).IsClear := husable
  have hsource : ∀ body, around [name] body = (Token.opening ⟨name, []⟩ false).source ++
      (body ++ (Token.closing name).source) := by
    simp [around, Token.source, Head.attributeSource, tagEnd, slash]
  have hopen : ¬ commentOpening <:+: afterComments body ∨ ¬ commentClosing <:+:
    '/' :: (name ++ '>' :: last) := by
    refine hbody.closed.imp_right fun hlast hmem => hlast ?_
    have hfront : '-' ∉ '/' :: (name ++ ['>']) :=
      (by decide : ∀ name ∈ Config.standard.opaqueTags, '-' ∉ '/' :: (name ++ ['>'])) name hname
    have hclosing : commentClosing = '-' :: ['-', '>'] := by decide
    have hsplit : '/' :: (name ++ '>' :: last) = '/' :: (name ++ ['>']) ++ last := by simp
    rw [hclosing, hsplit] at hmem
    exact Text.isInfix_of_not_mem hfront hmem
  have hfirst := ((misses_commentPattern hopening).quiet begins_commentPattern hopening before
    (body ++ ((Token.closing name).source ++ last))).scans_written fun _ => []
  obtain ⟨middle, hmiddle⟩ :=
    scans_uncommented hopen (behind before (Token.opening ⟨name, []⟩ false).source)
  have hlast := ((misses_commentPattern hclosing).quiet begins_commentPattern hclosing middle
    last).scans_written
    fun _ => []
  have hrest : (Token.closing name).source ++ last = '<' :: '/' :: (name ++ '>' :: last) := by
    simp [Token.source]
  have hstop : behind middle (Token.closing name).source = some '>' := by
    have hend : (Token.closing name).source = '<' :: '/' :: name ++ ['>'] := by simp [Token.source]
    rw [hend, behind_concat]
  rw [hrest, hstop] at hlast
  rw [hrest] at hfirst
  have hscan := hfirst.append (hmiddle.append hlast)
  rw [hsource, hsource, List.append_assoc, List.append_assoc, hrest]
  exact hscan

omit hname in
theorem exists_scans_element (rest : Text) : ∃ shown after, Scans (opaqueElement opaqueName)
    (written fun hit => hit.group .opening ++ hit.group .closing) (between (some '>') rest) shown
    (between after []) :=
  exists_scans (fun _ _ => left_lt_of_matchAt_opaqueElement) _ _

/-- Whatever the body of an opaque element is, what is visible shows nothing of it. -/
theorem exists_visible (hcomment : ¬ commentOpening <:+: first) (htags : IsTagFree first)
    (last : Text) :
    ∃ shown, ∀ body, IsHidden body last →
      visible Config.standard (first ++ (around [name] body ++ last)) = first ++
        (around [name] [] ++ shown) := by
  obtain ⟨left, before, hleft⟩ := exists_scans (fun _ _ => left_lt_of_matchAt_comment)
    (written fun _ => []) (between (some '>') last)
  obtain ⟨shown, after, hshown⟩ := exists_scans_element left
  refine ⟨shown, fun body hbody => ?_⟩
  have hcons : ∀ body rest, ∃ more, around [name] body ++ rest = '<' :: more := fun _ _ => ⟨_, rfl⟩
  have hplain : commentPattern.replace (fun _ => []) (first ++ (around [name] body ++ last)) =
      first ++ (around [name] (uncommented body) ++ left) := by
    obtain ⟨more, hmore⟩ := hcons body last
    have hquiet : Quiet commentPattern none first ('<' :: more) := quiet_comment hcomment more
    have hfirst := hquiet.scans_written fun _ => []
    rw [← hmore] at hfirst
    exact (hfirst.append ((scans_around hname hbody _).append hleft)).replace
  obtain ⟨hit, hmatch, hstop, hwritten⟩ :=
    matchAt_hidden hname hbody.ends (behind none first) left
  obtain ⟨more, hmore⟩ := hcons (uncommented body) left
  have hquiet : Quiet (opaqueElement opaqueName) none first ('<' :: more) := htags.quiet more
  have hfirst := hquiet.scans_written fun hit => hit.group .opening ++ hit.group .closing
  rw [← hmore] at hfirst
  rw [← hstop] at hshown
  have hscan := hfirst.append (.matched hmatch (left_lt_of_matchAt_opaqueElement hmatch) hshown)
  rw [visible, hplain, ← hwritten]
  exact hscan.replace

end

end Visualforce.Markup
