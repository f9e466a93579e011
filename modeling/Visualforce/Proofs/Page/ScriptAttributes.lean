import Visualforce.Proofs.Page.IncludeDirectives
import Visualforce.Proofs.Pattern.Keyword
import Visualforce.Proofs.Text.Trim

/-! # The address of a script

The address of a script is the value of the first attribute that is named for it. It is searched in
the attributes as they are written, so it is found where a word for it stands in front of an equals
sign and a quote. In clear attributes that is so at the names only.
-/
namespace Visualforce.Page
open Pattern Cursor Markup

variable {text value rest : Text} {before : Option Char}

/-- The name of the attribute for an address, in lower case. -/
def addressName : Text := "src".toList

theorem isLowerName_addressName : IsLowerName addressName :=
  (by decide : ∀ c ∈ addressName, c.isLower)

def IsAddressSign (text : Text) : Prop :=
  ∃ word first second, text = word ++ (first ++ '=' :: second) ∧ SameUpToCase addressName word ∧
    (∀ c ∈ first, Text.isBlank c) ∧ ∀ c ∈ second, Text.isBlank c

def EndsInAddressSign (text : Text) : Prop :=
  ∃ front sign, text = front ++ sign ∧ IsAddressSign sign ∧ front.getLast?.any Text.isWord = false

def isAttributeChar (c : Char) : Bool := Text.isWord c || c == '-'

/-- An attribute as it is written, with the blanks in front of it. -/
structure ScriptAttribute where
  gap : Text
  name : Text
  value : Text
  gap_ne_nil : gap ≠ []
  gap_blank : ∀ c ∈ gap, Text.isBlank c
  name_chars : ∀ c ∈ name, isAttributeChar c
  value_chars : ∀ c ∈ value, isQuote c = false ∧ c ≠ '>'

namespace ScriptAttribute

variable (attr : ScriptAttribute)

/-- What is written behind the blanks. -/
def assignment : Text := attr.name ++ '=' :: '"' :: (attr.value ++ ['"'])

def source : Text := attr.gap ++ attr.assignment

def address? : Option Text := if SameUpToCase addressName attr.name then nonEmpty? attr.value
    else none

/-- Nothing but the name can be taken for the word for an address: no name ends in that word behind
a dash, and no value in that word and an equals sign. -/
structure IsClear (attr : ScriptAttribute) : Prop where
  name : ¬ SameUpToCase ('-' :: addressName) (attr.name.rtake 4)
  value : ¬ EndsInAddressSign attr.value

end ScriptAttribute

theorem isQuote_of_isWord {c : Char} (h : Text.isWord c) : isQuote c = false := by
  rw [← Bool.not_eq_true, isQuote_iff]
  rintro (rfl | rfl)
  · exact absurd h (by decide)
  · exact absurd h (by decide)

theorem isQuote_of_mem_sign (h : IsAddressSign text) : ∀ c ∈ text, isQuote c = false := by
  obtain ⟨word, first, second, rfl, hword, hfirst, hsecond⟩ := h
  refine List.forall_mem_append.mpr
    ⟨fun c hc => ?_, List.forall_mem_append.mpr ⟨fun c hc => ?_, ?_⟩⟩
  · exact isQuote_of_isWord (hword.isWord isLowerName_addressName c hc)
  · exact isQuote_of_isBlank (hfirst c hc)
  · exact List.forall_mem_cons.mpr ⟨by decide, fun c hc => isQuote_of_isBlank (hsecond c hc)⟩

theorem isWord_head?_addressName (h : SameUpToCase addressName text) (rest : Text) :
    (text ++ rest).head?.any Text.isWord := by
  cases text with
  | nil => cases h
  | cons c text => exact h.isWord isLowerName_addressName c List.mem_cons_self

theorem isWord_head?_sign (h : IsAddressSign text) (rest : Text) :
    (text ++ rest).head?.any Text.isWord := by
  obtain ⟨word, first, second, rfl, hword, -⟩ := h
  rw [List.append_assoc]
  exact isWord_head?_addressName hword _

theorem not_endsInAddressSign (h : (Text.trimEnd text).getLast? ≠ some '=') :
    ¬ EndsInAddressSign text := by
  rintro ⟨front, _, rfl, ⟨word, first, second, rfl, -, -, hsecond⟩, -⟩
  have htext : front ++ (word ++ (first ++ '=' :: second)) = (front ++ (word ++ first)) ++ ['='] ++
    second := by simp
  refine h ?_
  rw [htext, Text.trimEnd_eq_rdropWhile, List.rdropWhile, List.reverse_append,
    List.dropWhile_append_of_pos fun c hc => hsecond c (List.mem_reverse.mp hc),
    List.reverse_append, List.reverse_singleton, List.singleton_append, List.dropWhile_cons_of_neg
    (by decide), List.reverse_cons, List.getLast?_concat]

theorem exists_of_matchAt_address {hit : Hit Unit}
    (h : scriptSource.matchAt (between before text) = some hit) :
    ∃ sign quote c rest, text = sign ++ quote :: c :: rest ∧ IsAddressSign sign ∧ isQuote quote ∧
      isQuote c = false ∧
      before.any Text.isWord = false := by
  obtain ⟨_, hquoted, -⟩ := leads_append.mp (leads_of_matchAt h).2
  obtain ⟨_, hfront, hvalue⟩ := leads_append.mp hquoted
  obtain ⟨_, hfront, hquote⟩ := leads_append.mp hfront
  obtain ⟨_, hfront, hequals⟩ := leads_append.mp hfront
  obtain ⟨_, hedge, hname⟩ := leads_append.mp hfront
  obtain ⟨_, hequals, hsecond⟩ := leads_append.mp hequals
  obtain ⟨_, hfirst, hsign⟩ := leads_append.mp hequals
  obtain ⟨_, hvalue, -⟩ := leads_group.mp hvalue
  obtain ⟨rfl, hends⟩ := hedge.wordEdge_inv
  obtain ⟨word, hname, hword⟩ := hname.caseless_inv
  obtain ⟨first, hfirst, hblank, -⟩ := hfirst.manyOne_inv
  obtain ⟨second, hsecond, hblank', -⟩ := hsecond.manyOne_inv
  obtain ⟨quote, hquote, hmark, -⟩ := hquote.one_inv
  obtain ⟨there, hvalue, -⟩ := leads_append.mp hvalue
  obtain ⟨c, hvalue, hc, -⟩ := hvalue.one_inv
  have hsign' : IsAddressSign (word ++ (first ++ '=' :: second)) :=
    ⟨word, first, second, rfl, hword, hblank, hblank'⟩
  have htext : text = (word ++ (first ++ '=' :: second)) ++ quote :: c :: there.cursor.rest := by
    have htext : text = _ := hname
    rw [htext, hfirst, hsign.char_inv.1, hsecond, hquote, hvalue]
    simp
  refine ⟨_, quote, c, _, htext, hsign', ?_, ?_, ?_⟩
  · rw [isQuote_iff]
    simpa using hmark
  · rw [← Bool.not_eq_true, isQuote_iff]
    simpa using hc
  · rw [between_before, between_rest, htext, isWord_head?_sign hsign'] at hends
    exact Bool.eq_false_iff.mpr hends

theorem eq_sign_of_append {sign passed : Text} {quote quote' : Char} {rest' : Text}
    (hsign : IsAddressSign sign)
    (hquote : isQuote quote) (hpassed : ∀ c ∈ passed, isQuote c = false) (hquote' : isQuote quote')
    (h : passed ++ quote' :: rest' = sign ++ quote :: rest) : passed = sign := by
  have hnot {c : Char} {text : Text} (hc : isQuote c) (htext : ∀ c ∈ text, isQuote c = false) :
    c ∉ text :=
    fun hmem => Bool.false_ne_true ((htext c hmem).symm.trans hc)
  obtain ⟨left, rfl, hleft⟩ := Text.exists_of_append_eq_cons (hnot hquote hpassed) h
  cases left with
  | nil => rw [List.append_nil]
  | cons c left =>
    obtain ⟨rfl, -⟩ := List.cons_eq_cons.mp hleft
    exact absurd (by simp) (hnot hquote' (isQuote_of_mem_sign hsign))

theorem sameUpToCase_of_sign (h : IsAddressSign (text ++ ['=']))
    (htext : ∀ c ∈ text, isAttributeChar c) :
    SameUpToCase addressName text := by
  obtain ⟨word, first, second, heq, hword, hfirst, -⟩ := h
  have hnot : '=' ∉ text := fun hmem => absurd (htext '=' hmem) (by decide)
  rw [← List.append_assoc] at heq
  obtain ⟨left, hleft, hrest⟩ := Text.exists_of_append_eq_cons hnot heq
  cases left with
  | cons c left => simp at hrest
  | nil =>
    cases first with
    | nil => rwa [← List.append_nil text, ← hleft, List.append_nil]
    | cons c first =>
      have hmem : c ∈ text := by
        rw [← List.append_nil text, ← hleft]
        simp
      have hblank := hfirst c List.mem_cons_self
      rcases Bool.or_eq_true_iff.mp (htext c hmem) with hc | hc
      · rw [Text.isBlank_of_isWord hc] at hblank
        cases hblank
      · exact absurd (eq_of_beq hc ▸ hblank) (by decide)

namespace ScriptAttribute

variable {attr : ScriptAttribute} {front more : Text} {c : Char}

theorem isQuote_of_mem_name (hc : c ∈ attr.name) : isQuote c = false := by
  rcases Bool.or_eq_true_iff.mp (attr.name_chars c hc) with h | h
  · exact isQuote_of_isWord h
  · exact eq_of_beq h ▸ rfl

theorem isQuote_of_mem_value (hc : c ∈ attr.value) : isQuote c = false := (attr.value_chars c hc).1

/-- Where an address is matched in a name, the rest of the name is the word for it, and a character
of the value follows. -/
theorem exists_of_matchAt_name {hit : Hit Unit} (hname : attr.name = front ++ more)
    (h : scriptSource.matchAt (between before (more ++ '=' :: '"' :: rest)) = some hit) :
    SameUpToCase addressName more ∧ before.any Text.isWord = false ∧ ∃ c ∈ rest.head?, isQuote c =
      false := by
  obtain ⟨sign, quote, c, behind, heq, hsign, hquote, hc, hbefore⟩ := exists_of_matchAt_address h
  have hmore : ∀ c ∈ more, c ∈ attr.name := fun c hc => hname ▸ List.mem_append_right front hc
  have hquotes : ∀ c ∈ more ++ ['='], isQuote c = false :=
    List.forall_mem_append.mpr ⟨fun c hc => isQuote_of_mem_name (hmore c hc), by decide⟩
  have hsplit : more ++ '=' :: '"' :: rest = (more ++ ['=']) ++ '"' :: rest := by simp
  rw [hsplit] at heq
  have hsame := eq_sign_of_append hsign hquote hquotes (by decide) heq
  rw [hsame] at heq
  obtain ⟨-, rfl⟩ := List.cons_eq_cons.mp (List.append_cancel_left heq)
  exact ⟨sameUpToCase_of_sign (hsame ▸ hsign) fun c hc => attr.name_chars c (hmore c hc), hbefore,
    c, rfl, hc⟩

theorem matchAt_name_none (hattr : attr.IsClear) (hname : attr.name = front ++ more)
    (hfront : front ≠ []) :
    scriptSource.matchAt (between (behind before front) (more ++ '=' :: '"' :: rest)) = none := by
  refine Option.eq_none_iff_forall_ne_some.mpr fun hit hmatch => ?_
  obtain ⟨hword, hbefore, -⟩ := exists_of_matchAt_name hname hmatch
  obtain ⟨front, d, rfl⟩ := (List.eq_nil_or_concat' front).resolve_left hfront
  rw [behind_concat] at hbefore
  -- a word begins inside a name behind a dash only
  have hd : isAttributeChar d := attr.name_chars d (hname ▸ by simp)
  obtain rfl : d = '-' :=
    eq_of_beq ((Bool.or_eq_true_iff.mp hd).resolve_left (Bool.eq_false_iff.mp hbefore))
  have hlast : attr.name.rtake 4 = '-' :: more := by
    have hlength : more.length = 3 := hword.length_eq.symm
    rw [hname, List.append_assoc, List.rtake_eq_reverse_take_reverse, List.reverse_append,
      List.take_left' (by simp [hlength])]
    simp
  exact hattr.name (hlast ▸ .cons (by decide) hword)

theorem matchAt_assignment_none (h : attr.address? = none) :
    scriptSource.matchAt (between before (attr.assignment ++ rest)) = none := by
  refine Option.eq_none_iff_forall_ne_some.mpr fun hit hmatch => ?_
  rw [assignment, List.append_assoc] at hmatch
  obtain ⟨hword, -, c, hc, hquote⟩ := exists_of_matchAt_name (List.nil_append attr.name).symm hmatch
  rw [address?, if_pos hword] at h
  cases hvalue : attr.value with
  | nil =>
    rw [hvalue] at hc
    obtain rfl := Option.some.inj hc
    cases hquote
  | cons d value =>
    rw [hvalue] at h
    cases h

theorem matchAt_value_none (hattr : attr.IsClear) (hvalue : attr.value = front ++ more) :
    scriptSource.matchAt (between (behind (some '"') front) (more ++ '"' :: rest)) = none := by
  refine Option.eq_none_iff_forall_ne_some.mpr fun hit hmatch => ?_
  obtain ⟨sign, quote, c, behind, heq, hsign, hquote, -, hbefore⟩ :=
    exists_of_matchAt_address hmatch
  have hmore : ∀ c ∈ more, isQuote c = false :=
    fun c hc => isQuote_of_mem_value (hvalue ▸ List.mem_append_right front hc)
  obtain rfl := eq_sign_of_append hsign hquote hmore (by decide) heq
  refine hattr.value ⟨front, more, hvalue, hsign, ?_⟩
  rcases List.eq_nil_or_concat' front with rfl | ⟨front, d, rfl⟩
  · rfl
  · rwa [List.getLast?_concat, ← behind_concat]

theorem address?_eq_some_iff {address : Text} : attr.address? = some address ↔
    SameUpToCase addressName attr.name ∧ attr.value = address ∧ address ≠ [] := by
  rw [address?, ite_eq_iff, nonEmpty?_eq_some_iff]
  simp

/-- An address is matched from the name up to the closing quote. -/
theorem exists_matchAt_assignment {address : Text} (h : attr.address? = some address)
    (hbefore : before.any Text.isWord = false) (rest : Text) : ∃ hit,
    scriptSource.matchAt (between before (attr.assignment ++ rest)) = some hit ∧
    hit.stop = between (some '"') rest ∧
      hit.group () = address := by
  obtain ⟨hname, rfl, hne⟩ := address?_eq_some_iff.mp h
  have hvalue : ∀ c ∈ attr.value, (!"\"'".toList.contains c) = true := by
    intro c hc
    have hquote := isQuote_of_mem_value hc
    simpa [isQuote] using hquote
  let inside := between (some '"') (attr.value ++ '"' :: rest)
  let behindValue := between (behind (some '"') attr.value) ('"' :: rest)
  have hrun : scriptSource.run
    ⟨between before (attr.name ++ '=' :: '"' :: (attr.value ++ '"' :: rest)), []⟩ some =
      some ⟨between (some '"') rest, [((), inside.spanTo behindValue)]⟩ := by
    have hpattern : scriptSource = wordEdge ++ caseless addressName ++ equalsSign ++ quoteMark ++
        group () (plus (noneOf "\"'")) ++ quoteMark := rfl
    simp only [hpattern, run_append]
    rw [run_wordEdge_ahead (isWord_head?_addressName hname _), hbefore, if_neg Bool.false_ne_true,
      run_caseless_of_sameUpToCase hname, run_equalsSign (by decide)]
    simp only [quoteMark, oneOf, run_one_cons, run_group]
    rw [if_pos (by decide)]
    refine run_plusOne_of_some hne hvalue ?_ (by rw [run_one_cons]; rfl)
    rintro c ⟨⟩
    decide
  have hsource : attr.assignment ++ rest = attr.name ++
    '=' :: '"' :: (attr.value ++ '"' :: rest) := by
    simp [assignment]
  refine ⟨_, by rw [hsource, matchAt, hrun]; rfl, rfl, ?_⟩
  exact spanTo_text (some '"') (behind (some '"') attr.value) attr.value ('"' :: rest)

theorem quiet_address {passed : Text} (h : ∀ c ∈ passed, Text.isWord c = false)
    (before : Option Char) (rest : Text) :
    Quiet scriptSource before passed rest := by
  refine quiet_of_forall fun front c more heq => ?_
  refine Option.eq_none_iff_forall_ne_some.mpr fun hit hmatch => ?_
  obtain ⟨sign, quote, d, behind, htext, hsign, -⟩ := exists_of_matchAt_address hmatch
  have hword := isWord_head?_sign hsign (quote :: d :: behind)
  rw [← htext] at hword
  exact Bool.false_ne_true ((h c (heq ▸ by simp)).symm.trans hword)

theorem quiet_assignment (hattr : attr.IsClear) (h : attr.address? = none) (before : Option Char)
    (rest : Text) :
    Quiet scriptSource before attr.assignment rest := by
  have hlast : Quiet scriptSource (behind (some '"') attr.value) ['"'] rest :=
    quiet_address (by decide) _ _
  have hvalue : Quiet scriptSource (some '"') attr.value (['"'] ++ rest) :=
    quiet_of_forall fun front c more heq => matchAt_value_none hattr heq
  have hsigns : Quiet scriptSource (behind before attr.name) ['=', '"']
    ((attr.value ++ ['"']) ++ rest) :=
    quiet_address (by decide) _ _
  have hname : Quiet scriptSource before attr.name ((['=', '"'] ++ (attr.value ++ ['"'])) ++
    rest) := by
    refine quiet_of_forall fun front c more heq => ?_
    cases front with
    | nil =>
      have hnone : scriptSource.matchAt (between before (attr.assignment ++ rest)) = none :=
        matchAt_assignment_none h
      rw [assignment, heq] at hnone
      simpa using hnone
    | cons d front => exact matchAt_name_none hattr heq (List.cons_ne_nil d front)
  exact hname.append (hsigns.append (hvalue.append hlast))

theorem yields_source (hattr : attr.IsClear) :
    Yields scriptSource (seen (·.group ())) anything attr.source attr.address?.toList := by
  refine ⟨fun before rest _ => ?_, fun _ _ => trivial⟩
  have hblank : ∀ c ∈ attr.gap, Text.isWord c = false :=
    fun c hc => Text.isWord_of_isBlank (attr.gap_blank c hc)
  have hgap := (quiet_address hblank before (attr.assignment ++ rest)).scans_seen (·.group ())
  rw [source, List.append_assoc]
  cases haddress : attr.address? with
  | none =>
    have hrest := (quiet_assignment hattr haddress (behind before attr.gap) rest).scans_seen
      (·.group ())
    exact ⟨_, hgap.append hrest⟩
  | some address =>
    have hbefore : (behind before attr.gap).any Text.isWord = false := by
      obtain ⟨front, c, hfront⟩ := (List.eq_nil_or_concat' attr.gap).resolve_left attr.gap_ne_nil
      rw [hfront, behind_concat]
      exact hblank c (hfront ▸ by simp)
    obtain ⟨hit, hmatch, hstop, rfl⟩ := exists_matchAt_assignment haddress hbefore rest
    have hlt : hit.stop.left <
      (between (behind before attr.gap) (attr.assignment ++ rest)).left := by
      rw [hstop, between_left, between_left, assignment]
      simp only [List.length_append, List.length_cons]
      omega
    have hsingle := Scans.single (·.group ()) hmatch hlt
    rw [hstop] at hsingle
    exact ⟨_, hgap.append hsingle⟩

end ScriptAttribute

theorem search_address {attributes : List ScriptAttribute} (h : ∀ attr ∈ attributes, attr.IsClear)
    {trail : Text}
    (htrail : ∀ c ∈ trail, Text.isBlank c) :
    (scriptSource.search (attributes.flatMap ScriptAttribute.source ++ trail)).map (·.group ()) =
      attributes.findSome? ScriptAttribute.address? := by
  have hattributes : Yields scriptSource (seen (·.group ())) anything
    (attributes.flatMap ScriptAttribute.source)
      (attributes.flatMap fun attr => attr.address?.toList) :=
    .flatMap fun attr hattr => ScriptAttribute.yields_source (h attr hattr)
  have hblank : ∀ c ∈ trail, Text.isWord c = false :=
    fun c hc => Text.isWord_of_isBlank (htrail c hc)
  have hend : Yields scriptSource (seen (·.group ())) anything trail [] :=
    .of_quiet (fun _ _ => trivial) fun before rest _ => ScriptAttribute.quiet_address hblank before
      rest
  have hnone (before : Option Char) : scriptSource.matchAt (between before []) = none := by
    refine Option.eq_none_iff_forall_ne_some.mpr fun hit hmatch => ?_
    obtain ⟨sign, quote, c, rest, htext, -⟩ := exists_of_matchAt_address hmatch
    simp at htext
  have hsearch := (hattributes.append hend).search trivial hnone
  rw [hsearch, List.append_nil, ← List.filterMap_eq_flatMap_toList, List.head?_filterMap]

end Visualforce.Page
