import Visualforce.Proofs.Apex.Outline
import Visualforce.Proofs.Page.Chain

/-! # The kinds of expressions

What kind an expression is of is told from its trimmed text character by character: a name in front
of a parenthesis, then a symbol or a word of logic, then a name in front of a dot and another name.
The rank, the split of paths and plain identifiers all keep to these kinds.
-/
namespace Visualforce

namespace Expression
open Pattern Cursor

variable {text : Text}

/-- A name at the front is directly followed by a parenthesis. -/
def BeginsCall (text : Text) : Prop := ∃ name rest, text = name ++ '(' :: rest ∧ IsIdentifier name

def HoldsSymbol (text : Text) : Prop :=
  ∃ symbol ∈ ["&&", "||", "==", "!=", ">", "<"], symbol.toList <:+: text

def logicWords : List Text := ["and", "or", "not"].map String.toList

/-- A word of logic in any case has no word character on either side. -/
def HoldsLogicWord (text : Text) : Prop :=
  ∃ front word rest, text = front ++ (word ++ rest) ∧ word.map Char.toLower ∈ logicWords ∧
    (∀ c ∈ front.getLast?, Text.isWord c = false) ∧ ∀ c ∈ rest.head?, Text.isWord c = false

/-- A dot is followed by the beginning of a name, and in the whole run of identifier characters
before it there is one that a name can begin with. -/
def HoldsAccess (text : Text) : Prop :=
  ∃ front run c rest, text = front ++ (run ++ '.' :: c :: rest) ∧ isIdentifierStart c ∧
    (∀ d ∈ run, isIdentifierChar d) ∧ (∀ d ∈ front.getLast?, isIdentifierChar d = false) ∧
    ∃ d ∈ run, isIdentifierStart d

theorem exists_of_leads_identifier {κ : Type} {here there : Place κ}
    (h : Leads identifier here there) :
    ∃ name, here.cursor.rest = name ++ there.cursor.rest ∧ IsIdentifier name := by
  obtain ⟨middle, hfirst, hmore⟩ := leads_append.mp h
  obtain ⟨c, hrest, hc, -⟩ := hfirst.one_inv
  obtain ⟨name, hrest', hname, -⟩ := hmore.manyOne_inv
  exact ⟨c :: name, by rw [hrest, hrest', List.cons_append], c, name, rfl, hc, hname⟩

theorem forall_mem_of_isIdentifier {name : Text} (h : IsIdentifier name) :
    ∀ c ∈ name, isIdentifierChar c := by
  obtain ⟨c, rest, rfl, hc, hrest⟩ := h
  refine List.forall_mem_cons.mpr ⟨?_, hrest⟩
  rw [isIdentifierStart, Bool.or_eq_true, Bool.or_eq_true, beq_iff_eq, beq_iff_eq] at hc
  rcases hc with (halpha | rfl) | rfl
  · rw [isIdentifierChar, Markup.isWord_of_isNamePart (Markup.isNamePart_of_isAlpha halpha),
      Bool.true_or]
  · decide
  · decide

theorem startsWith_callOpening : startsWith callOpening text = true ↔ BeginsCall text := by
  rw [startsWith, Option.isSome_iff_ne_none, matchAt, start_eq, Option.map_eq_none_iff.ne]
  constructor
  · intro h
    obtain ⟨last, hrun⟩ := Option.ne_none_iff_exists'.mp h
    obtain ⟨there, hleads, -⟩ := exists_leads hrun
    obtain ⟨middle, hname, hparen⟩ := leads_append.mp hleads
    obtain ⟨name, hrest, hidentifier⟩ := exists_of_leads_identifier hname
    exact ⟨name, there.cursor.rest, by rw [← hparen.char_inv.1, ← hrest]; rfl, hidentifier⟩
  · rintro ⟨name, rest, rfl, hname⟩
    have hparen : ∀ c ∈ ('(' :: rest).head?, isIdentifierChar c = false := by
      rintro c ⟨⟩
      decide
    have hrun : callOpening.run ⟨between none (name ++ '(' :: rest), []⟩ some =
        some ⟨between (some '(') rest, []⟩ :=
      run_identifier_of_some hname hparen rfl
    rw [hrun]
    exact Option.some_ne_none _

theorem any_booleanSymbols : booleanSymbols.any (Text.has · text) = true ↔ HoldsSymbol text := by
  rw [booleanSymbols, List.any_map, List.any_eq_true]
  exact exists_congr fun symbol => and_congr_right fun _ => Text.has_iff_isInfix

/-- An upper-case letter without a counterpart beyond ASCII agrees up to case with its two forms
only. -/
theorem sameUpToCase_upper_iff {c d : Char} (hlower : c.toLower.isLower)
    (hne : c.toLower ∉ "iks".toList)
    (hkey : Text.foldKey c = Text.foldKey c.toLower) : Text.sameUpToCase c d ↔
    d.toLower = c.toLower := by
  have hsame : Text.sameUpToCase c d = Text.sameUpToCase c.toLower d := by
    rw [Text.sameUpToCase, Text.sameUpToCase, hkey]
  rw [hsame]
  constructor
  · intro h
    exact (sameUpToCase_iff hlower (toNat_lt_of_sameUpToCase hlower hne h)).mp h
  · intro h
    exact (sameUpToCase_iff hlower (toNat_lt_of_toLower (h ▸ toNat_lt_of_isLower hlower))).mpr h

theorem sameUpToCase_logicName {name : String} (hname : name ∈ ["AND", "OR", "NOT"]) (word : Text) :
    SameUpToCase name.toList word ↔ word.map Char.toLower = name.toList.map Char.toLower := by
  have hall : ∀ name ∈ ["AND", "OR", "NOT"], ∀ c ∈ name.toList,
      c.toLower.isLower ∧ c.toLower ∉ "iks".toList ∧ Text.foldKey c = Text.foldKey c.toLower := by
      decide
  have hchars := hall name hname
  generalize name.toList = letters at hchars
  induction letters generalizing word with
  | nil => rw [SameUpToCase, List.forall₂_nil_left_iff, List.map_nil, List.map_eq_nil_iff]
  | cons c letters ih =>
    obtain ⟨⟨hlower, hne, hkey⟩, hletters⟩ := List.forall_mem_cons.mp hchars
    cases word with
    | nil => simp [SameUpToCase]
    | cons d word =>
      rw [SameUpToCase, List.forall₂_cons, List.map_cons, List.map_cons, List.cons.injEq]
      exact and_congr (sameUpToCase_upper_iff hlower hne hkey) (ih word hletters)

theorem mem_logicWords {word : Text} : word.map Char.toLower ∈ logicWords ↔
    ∃ name ∈ ["AND", "OR", "NOT"], SameUpToCase name.toList word := by
  have hwords : logicWords = ["AND", "OR", "NOT"].map fun name => name.toList.map Char.toLower := by
    decide
  rw [hwords, List.mem_map]
  refine exists_congr fun name => and_congr_right fun hname => ?_
  rw [sameUpToCase_logicName hname, eq_comm]

theorem isWord_of_mem_logicWords {word : Text} (h : word.map Char.toLower ∈ logicWords) :
    word ≠ [] ∧ ∀ c ∈ word, Text.isWord c := by
  have hall : ∀ letters ∈ logicWords, letters ≠ [] ∧ ∀ c ∈ letters, c.isLower := by decide
  have hletters := hall _ h
  refine ⟨fun hnil => hletters.1 (by rw [hnil, List.map_nil]), fun c hc => ?_⟩
  have hlower := hletters.2 c.toLower (List.mem_map_of_mem hc)
  have hascii := toNat_lt_of_toLower (toNat_lt_of_isLower hlower)
  exact Text.forall_ascii (fun c => c.toLower.isLower → Text.isWord c) (by decide +kernel)
    hascii hlower

theorem any_isWord_eq_false {edge : Option Char} :
    edge.any Text.isWord = false ↔ ∀ c ∈ edge, Text.isWord c = false := by
  cases edge with
  | none => simp
  | some c => simp

/-- The alternatives of the pattern. -/
def logicPatterns : List (Pattern Unit) := [anyCase "AND", anyCase "OR", anyCase "NOT"]

theorem run_logicWord {word rest : Text} {before : Option Char}
    (h : word.map Char.toLower ∈ logicWords)
    (hrest : ∀ c ∈ rest.head?, Text.isWord c = false) : (firstOf logicPatterns).run
      ⟨between before (word ++ rest), []⟩ (fun there => wordEdge.run there some) ≠ none := by
  obtain ⟨name, hname, hsame⟩ := mem_logicWords.mp h
  obtain ⟨hne, hword⟩ := isWord_of_mem_logicWords h
  obtain ⟨front, c, rfl⟩ := (List.eq_nil_or_concat' word).resolve_left hne
  rw [run_firstOf]
  intro hnone
  have hpattern : anyCase name ∈ logicPatterns := List.mem_map_of_mem (f := anyCase) hname
  have hrun := List.findSome?_eq_none_iff.mp hnone _ hpattern
  rw [anyCase, run_caseless_of_sameUpToCase hsame, behind_concat, run_wordEdge_behind,
    any_isWord_eq_false.mpr hrest] at hrun
  · cases hrun
  · exact hword c (by simp)

theorem occursIn_booleanWord : booleanWord.occursIn text = true ↔ HoldsLogicWord text := by
  rw [occursIn_iff]
  constructor
  · rintro ⟨front, tail, rfl, hmatch⟩
    obtain ⟨hit, hhit⟩ := Option.ne_none_iff_exists'.mp hmatch
    obtain ⟨middle, hleads, hlast⟩ := leads_append.mp (leads_of_matchAt hhit).2
    obtain ⟨there, hfirst, hwords⟩ := leads_append.mp hleads
    obtain ⟨pattern, hpattern, hwords⟩ := hwords.firstOf_inv
    obtain ⟨name, hname, rfl⟩ :=
      List.mem_map.mp (show pattern ∈ ["AND", "OR", "NOT"].map anyCase from hpattern)
    obtain ⟨word, hrest, hsame⟩ := hwords.caseless_inv
    obtain ⟨passed, hrest', hbefore⟩ := hwords.reaches
    obtain rfl : passed = word := List.append_cancel_right (hrest'.symm.trans hrest)
    have hlogic := mem_logicWords.mpr ⟨name, hname, hsame⟩
    obtain ⟨hne, hword⟩ := isWord_of_mem_logicWords hlogic
    obtain ⟨rfl, hedge⟩ := hfirst.wordEdge_inv
    obtain ⟨hstop, hedge'⟩ := hlast.wordEdge_inv
    refine ⟨front, passed, middle.cursor.rest, congrArg (front ++ ·) hrest, hlogic, ?_, ?_⟩
    · obtain ⟨c, more, rfl⟩ := List.exists_cons_of_ne_nil hne
      have hhead : tail.head?.any Text.isWord = true := by
        rw [show tail = c :: more ++ middle.cursor.rest from hrest]
        exact hword c List.mem_cons_self
      refine any_isWord_eq_false.mp ?_
      rw [← behind_none]
      exact Bool.not_eq_true _ ▸ fun hbehind => hedge (hbehind.trans hhead.symm)
    · obtain ⟨before, c, rfl⟩ := (List.eq_nil_or_concat' passed).resolve_left hne
      have hlastChar : middle.cursor.before.any Text.isWord = true := by
        rw [hbefore, behind_concat]
        exact hword c (by simp)
      refine any_isWord_eq_false.mp ?_
      exact Bool.not_eq_true _ ▸ fun hahead => hedge' (hlastChar.trans hahead.symm)
  · rintro ⟨front, word, rest, rfl, hword, hfront, hrest⟩
    refine ⟨front, word ++ rest, rfl, ?_⟩
    obtain ⟨hne, hchars⟩ := isWord_of_mem_logicWords hword
    obtain ⟨c, more, rfl⟩ := List.exists_cons_of_ne_nil hne
    have hhead : (c :: more ++ rest).head?.any Text.isWord := hchars c List.mem_cons_self
    have hedge : (behind none front).any Text.isWord = false := by
      rw [behind_none]
      exact any_isWord_eq_false.mpr hfront
    rw [matchAt, booleanWord, run_append, run_append, run_wordEdge_ahead hhead, hedge, ne_eq,
      Option.map_eq_none_iff]
    exact run_logicWord hword hrest

theorem occursIn_dottedAccess_iff : dottedAccess.occursIn text = true ↔ HoldsAccess text := by
  rw [occursIn_iff]
  constructor
  · rintro ⟨front, tail, rfl, hmatch⟩
    obtain ⟨hit, hhit⟩ := Option.ne_none_iff_exists'.mp hmatch
    obtain ⟨middle, hleads, hsecond⟩ := leads_append.mp (leads_of_matchAt hhit).2
    obtain ⟨there, hfirst, hdot⟩ := leads_append.mp hleads
    obtain ⟨name, hrest, hname⟩ := exists_of_leads_identifier hfirst
    obtain ⟨field, hrest', c, more, rfl, hc, -⟩ := exists_of_leads_identifier hsecond
    have htail : tail = name ++ '.' :: c :: (more ++ hit.stop.rest) := by
      rw [← List.cons_append, ← hrest', ← hdot.char_inv.1, ← hrest]
      rfl
    have hfront : front.rdropWhile isIdentifierChar ++ front.rtakeWhile isIdentifierChar = front :=
      List.rdropWhile_append_rtakeWhile
    refine ⟨front.rdropWhile isIdentifierChar, front.rtakeWhile isIdentifierChar ++ name, c,
      more ++ hit.stop.rest, ?_, hc, ?_, ?_, ?_⟩
    · rw [htail, ← List.append_assoc, ← List.append_assoc, ← List.append_assoc, hfront]
    · rintro d hd
      rcases List.mem_append.mp hd with hd | hd
      · exact List.mem_rtakeWhile_imp hd
      · exact forall_mem_of_isIdentifier hname d hd
    · rintro d hd
      obtain ⟨hne, rfl⟩ := List.mem_getLast?_eq_getLast hd
      exact Bool.not_eq_true _ ▸ List.rdropWhile_last_not _ _ hne
    · obtain ⟨d, rest, rfl, hd, -⟩ := hname
      exact ⟨d, by simp, hd⟩
  · rintro ⟨front, run, c, rest, rfl, hc, hrun, -, d, hd, hstart⟩
    obtain ⟨before, after, rfl⟩ := List.append_of_mem hd
    have hname : IsIdentifier (d :: after) :=
      ⟨d, after, rfl, hstart, fun e he =>
        hrun e (List.mem_append_right _ (List.mem_cons_of_mem d he))⟩
    obtain ⟨path, hchain⟩ := exists_beginsWithChain rest hname hc rfl
    refine ⟨front ++ before, d :: after ++ '.' :: c :: rest, by simp, ?_⟩
    exact Page.matchAt_dottedAccess _ hchain

/-- The kinds in the order of precedence. -/
inductive HasKind (text : Text) : Kind → Prop where
  | call (h : BeginsCall text) : HasKind text .functionCall
  | logic (hcall : ¬ BeginsCall text) (h : HoldsSymbol text ∨ HoldsLogicWord text) :
      HasKind text .booleanExpression
  | access (hcall : ¬ BeginsCall text) (hlogic : ¬ (HoldsSymbol text ∨ HoldsLogicWord text))
      (h : HoldsAccess text) : HasKind text .propertyPath
  | simple (hcall : ¬ BeginsCall text) (hlogic : ¬ (HoldsSymbol text ∨ HoldsLogicWord text))
      (haccess : ¬ HoldsAccess text) : HasKind text .simpleReference

theorem HasKind.unique {kind other : Kind} (h : HasKind text kind) (h' : HasKind text other) :
    kind = other := by
  cases h <;> cases h' <;> first | rfl | contradiction

theorem hasKind_classify (content : Text) : HasKind (Text.trim content) (classify content) := by
  have hlogic : (booleanWord.occursIn (Text.trim content) ||
      booleanSymbols.any (Text.has · (Text.trim content))) = true ↔
        HoldsSymbol (Text.trim content) ∨ HoldsLogicWord (Text.trim content) := by
    rw [Bool.or_eq_true, occursIn_booleanWord, any_booleanSymbols, or_comm]
  simp only [classify]
  split_ifs with hcall hwords haccess
  · exact .call (startsWith_callOpening.mp hcall)
  · exact .logic (mt startsWith_callOpening.mpr hcall) (hlogic.mp hwords)
  · exact .access (mt startsWith_callOpening.mpr hcall) (mt hlogic.mpr hwords)
      (occursIn_dottedAccess_iff.mp haccess)
  · exact .simple (mt startsWith_callOpening.mpr hcall) (mt hlogic.mpr hwords)
      (mt occursIn_dottedAccess_iff.mpr haccess)

theorem classify_iff {content : Text} {kind : Kind} :
    classify content = kind ↔ HasKind (Text.trim content) kind :=
  ⟨fun h => h ▸ hasKind_classify content, (hasKind_classify content).unique⟩

theorem rank_of_beginsCall {content : Text} (h : BeginsCall (Text.trim content)) :
    rank content = 2 := by
  obtain ⟨name, rest, htext, -⟩ := h
  have hmem : '(' ∈ content := Text.mem_of_mem_trim (htext ▸ by simp)
  rw [rank, if_pos (List.contains_iff_mem.mpr hmem)]

theorem one_le_rank_of_holdsAccess {content : Text} (h : HoldsAccess (Text.trim content)) :
    1 ≤ rank content := by
  obtain ⟨front, run, c, rest, htext, -⟩ := h
  have hmem : '.' ∈ content := Text.mem_of_mem_trim (htext ▸ by simp)
  rw [rank]
  split_ifs with hcall hdot
  · decide
  · decide
  · exact absurd (List.contains_iff_mem.mpr hmem) hdot

theorem dropWhile_of_isIdentifier {name rest : Text} (hname : IsIdentifier name)
    (hrest : ∀ c ∈ rest.head?, isIdentifierChar c = false) :
    (name ++ rest).dropWhile isIdentifierChar = rest := by
  rw [List.dropWhile_append_of_pos (forall_mem_of_isIdentifier hname)]
  cases rest with
  | nil => rfl
  | cons c rest => rw [List.dropWhile_cons_of_neg (by simp [hrest c rfl])]

theorem not_beginsCall_of_chain {entity : Text} {path : List Text}
    (h : BeginsWithChain text entity path) :
    ¬ BeginsCall text := by
  rintro ⟨name, rest, rfl, hname⟩
  obtain ⟨hentity, hne, -, rest', hsplit, hends⟩ := h
  obtain ⟨field, path, rfl⟩ := List.exists_cons_of_ne_nil hne
  have hparen : ∀ c ∈ ('(' :: rest).head?, isIdentifierChar c = false := by
    rintro c ⟨⟩
    decide
  have hcall := dropWhile_of_isIdentifier hname hparen
  rw [hsplit, dropWhile_of_isIdentifier hentity (head?_dotted_append _ hends.char), dotted_cons]
    at hcall
  cases hcall

theorem exists_chain_of_splitPath? {content : Text} (h : (Page.splitPath? content).isSome) :
    ∃ entity path, BeginsWithChain (Text.trim content) entity path := by
  have hmatch : Page.dottedPath.matchAt (between none (Text.trim content)) ≠ none := by
    intro hnone
    rw [Page.splitPath?, start_eq, hnone] at h
    cases h
  exact Page.exists_chain_of_matchAt hmatch

theorem kind_of_splitPath? {content : Text} (h : (Page.splitPath? content).isSome) :
    classify content = .booleanExpression ∨ classify content = .propertyPath := by
  obtain ⟨entity, path, hchain⟩ := exists_chain_of_splitPath? h
  have hcall := not_beginsCall_of_chain hchain
  have haccess := occursIn_dottedAccess_iff.mp (Page.occursIn_dottedAccess hchain)
  cases hkind : classify content with
  | functionCall =>
    cases classify_iff.mp hkind with
    | call hbegins => exact absurd hbegins hcall
  | booleanExpression => exact .inl rfl
  | propertyPath => exact .inr rfl
  | simpleReference =>
    cases classify_iff.mp hkind with
    | simple _ _ hnone => exact absurd haccess hnone

/-- A plain identifier is a name, and a line feed at most follows it. -/
theorem exists_of_startsWith_plainIdentifier (h : startsWith Page.plainIdentifier text) :
    ∃ name rest, text = name ++ rest ∧ Page.IsPlainIdentifier name ∧
      ∀ c ∈ rest, Text.isBlank c := by
  obtain ⟨hit, hhit⟩ := Option.isSome_iff_exists.mp h
  obtain ⟨middle, hleads, hlast⟩ := leads_append.mp (leads_of_matchAt hhit).2
  obtain ⟨there, hfirst, hmore⟩ := leads_append.mp hleads
  obtain ⟨c, hrest, hc, -⟩ := hfirst.one_inv
  obtain ⟨passed, hrest', hpassed, -⟩ := hmore.manyOne_inv
  refine ⟨c :: passed, middle.cursor.rest, ?_, ⟨c, passed, rfl, hc, hpassed⟩, ?_⟩
  · rw [List.cons_append, ← hrest', ← hrest]
    rfl
  · cases hlast with
    | guard hend =>
      rw [Bool.or_eq_true, List.isEmpty_iff, beq_iff_eq] at hend
      intro d hd
      rcases hend with hnil | hfeed
      · exact absurd (hnil ▸ hd) List.not_mem_nil
      · have hmem : d ∈ ['\n'] := hfeed ▸ hd
        rw [List.mem_singleton.mp hmem]
        decide

theorem forall_mem_of_isPlainIdentifier {name : Text} (h : Page.IsPlainIdentifier name) :
    ∀ c ∈ name, Text.isWord c := by
  obtain ⟨c, rest, rfl, hc, hrest⟩ := h
  refine List.forall_mem_cons.mpr ⟨?_, hrest⟩
  rcases Bool.or_eq_true _ _ ▸ hc with halpha | hlow
  · exact Markup.isWord_of_isNamePart (Markup.isNamePart_of_isAlpha halpha)
  · rw [beq_iff_eq.mp hlow]
    decide

theorem trim_of_startsWith_plainIdentifier (h : startsWith Page.plainIdentifier text) :
    Page.IsPlainIdentifier (Text.trim text) := by
  obtain ⟨name, rest, rfl, hname, hrest⟩ := exists_of_startsWith_plainIdentifier h
  have hword := forall_mem_of_isPlainIdentifier hname
  have htrimmed : Text.IsTrimmed name := Text.isTrimmed_of_ends
    (fun c hc => Text.isBlank_of_isWord (hword c (List.mem_of_mem_head? hc)))
    (fun c hc => Text.isBlank_of_isWord (hword c (List.mem_of_mem_getLast? hc)))
  have hne : name ≠ [] := by
    obtain ⟨c, more, rfl, -⟩ := hname
    exact List.cons_ne_nil c more
  have htrim : Text.trim (name ++ rest) = name :=
    Text.trim_padded (List.forall_mem_nil _) htrimmed hne hrest
  rwa [htrim]

/-- A text of word characters has no symbol, no parenthesis, no dot, and at most itself as a word of
logic. -/
theorem hasKind_simple_of_isWord (hword : ∀ c ∈ text, Text.isWord c)
    (hlogic : text.map Char.toLower ∉ logicWords) :
    HasKind text .simpleReference := by
  have hnone : ∀ c, Text.isWord c = false → c ∉ text := by
    intro c hc hmem
    rw [hword c hmem] at hc
    cases hc
  refine .simple ?_ ?_ ?_
  · rintro ⟨name, rest, rfl, -⟩
    exact hnone '(' (by decide) (by simp)
  · rintro (⟨symbol, hsymbol, hpart⟩ | ⟨front, word, rest, rfl, hword', hfront, hrest⟩)
    · have hall : ∀ symbol ∈ ["&&", "||", "==", "!=", ">", "<"], symbol.toList.any
        (!Text.isWord ·) := by decide
      obtain ⟨c, hc, hnot⟩ := List.any_eq_true.mp (hall symbol hsymbol)
      exact hnone c (by simpa using hnot) (hpart.subset hc)
    · have hfront' : front = [] := by
        rcases List.eq_nil_or_concat' front with hnil | ⟨more, c, rfl⟩
        · exact hnil
        · exact absurd (by simp) (hnone c (hfront c (by simp)))
      have hrest' : rest = [] := by
        cases rest with
        | nil => rfl
        | cons c rest => exact absurd (by simp) (hnone c (hrest c rfl))
      rw [hfront', hrest', List.nil_append, List.append_nil] at hlogic
      exact hlogic hword'
  · rintro ⟨front, run, c, rest, rfl, -⟩
    exact hnone '.' (by decide) (by simp)

/-- The kind of an expression is told from the characters of its trimmed text. A call has the
highest rank and a path has one, only boolean expressions and paths can be split, and a plain
identifier that is no word of logic is a simple reference. -/
theorem classify_shapes (content : Text) :
    (∀ kind, classify content = kind ↔ HasKind (Text.trim content) kind) ∧
      (classify content = .functionCall → rank content = 2) ∧
      (classify content = .propertyPath → 1 ≤ rank content) ∧
      ((Page.splitPath? content).isSome →
        classify content = .booleanExpression ∨ classify content = .propertyPath) ∧
      (startsWith Page.plainIdentifier content → (Text.trim content).map Char.toLower ∉ logicWords →
        classify content = .simpleReference) := by
  refine ⟨fun kind => classify_iff, ?_, ?_, kind_of_splitPath?, ?_⟩
  · intro hkind
    cases classify_iff.mp hkind with
    | call h => exact rank_of_beginsCall h
  · intro hkind
    cases classify_iff.mp hkind with
    | access _ _ h => exact one_le_rank_of_holdsAccess h
  · intro hplain hlogic
    have hword := forall_mem_of_isPlainIdentifier (trim_of_startsWith_plainIdentifier hplain)
    exact classify_iff.mpr (hasKind_simple_of_isWord hword hlogic)

/-- A call, a path, a comparison that can be split and a plain name. -/
theorem classify_shapes_samples :
    rank "save(a.b)".toList = 2 ∧ 1 ≤ rank "$User.Email".toList ∧
      (classify "acct.Active__c > 0".toList = .booleanExpression ∨
        classify "acct.Active__c > 0".toList = .propertyPath) ∧
      classify "android".toList = .simpleReference := by
  obtain ⟨-, hcall, -⟩ := classify_shapes "save(a.b)".toList
  obtain ⟨-, -, hpath, -⟩ := classify_shapes "$User.Email".toList
  obtain ⟨-, -, -, hsplit, -⟩ := classify_shapes "acct.Active__c > 0".toList
  obtain ⟨-, -, -, -, hplain⟩ := classify_shapes "android".toList
  exact ⟨hcall (by decide +kernel), hpath (by decide +kernel), hsplit (by decide +kernel),
    hplain (by decide +kernel) (by decide +kernel)⟩

end Expression
end Visualforce
