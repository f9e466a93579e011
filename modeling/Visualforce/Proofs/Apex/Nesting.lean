import Visualforce.Proofs.Apex.MemberScan

/-! # Finding inner classes

A declaration is found where the head of a class is written and nowhere in other members or in
ordinary comments. Braces are counted over entries as over nothing, so the body of a class ends
where it is written to end.
-/
namespace Visualforce.Apex
open Pattern Cursor

variable {before : Option Char} {rest : Text}

/-- Inside a class the braces of the text make no difference. -/
def IsBalanced (text : Text) : Prop :=
  ∀ depth place rest, 1 ≤ depth →
    closingFrom .code depth place (text ++ rest) = closingFrom .code depth (place + text.length)
      rest

namespace IsBalanced

variable {first second text : Text}

theorem nil : IsBalanced [] := fun _ _ _ _ => rfl

theorem append (hfirst : IsBalanced first) (hsecond : IsBalanced second) :
    IsBalanced (first ++ second) := by
  intro depth place rest hdepth
  rw [List.append_assoc, hfirst depth place _ hdepth, hsecond depth _ rest hdepth,
    List.length_append, Nat.add_assoc]

theorem cons {c : Char} (hc : c ∉ "'/\x7b\x7d".toList) (h : IsBalanced text) :
    IsBalanced (c :: text) := by
  intro depth place rest hdepth
  have hstep : closingFrom .code depth place (c :: (text ++ rest)) =
      closingFrom .code depth (place + 1) (text ++ rest) := by
    obtain ⟨hquote, hslash, hopen, hclose⟩ : c ≠ '\'' ∧ c ≠ '/' ∧ c ≠ '\x7b' ∧ c ≠ '\x7d' := by
      simpa using hc
    simp [closingFrom, hquote, hslash, hopen, hclose]
  rw [List.cons_append, hstep, h depth _ rest hdepth, List.length_cons, Nat.add_assoc,
    Nat.add_comm 1]

theorem of_forall (h : ∀ c ∈ text, c ∉ "'/\x7b\x7d".toList) : IsBalanced text := by
  induction text with
  | nil => exact nil
  | cons c text ih =>
    obtain ⟨hc, htext⟩ := List.forall_mem_cons.mp h
    exact cons hc (ih htext)

theorem braces (h : IsBalanced text) : IsBalanced ('\x7b' :: text ++ ['\x7d']) := by
  intro depth place rest hdepth
  have hopen : closingFrom .code depth place ('\x7b' :: (text ++ ('\x7d' :: rest))) =
      closingFrom .code (depth + 1) (place + 1) (text ++ ('\x7d' :: rest)) := by
    simp [closingFrom]
  have hclose : ∀ place, closingFrom .code (depth + 1) place ('\x7d' :: rest) =
      closingFrom .code depth (place + 1) rest := by
    intro place
    simp [closingFrom]
    omega
  have hsource : '\x7b' :: text ++ ['\x7d'] ++ rest = '\x7b' :: (text ++ '\x7d' :: rest) := by simp
  have hplace : place + ('\x7b' :: text ++ ['\x7d']).length = place + 1 + text.length + 1 := by
    rw [List.length_append, List.length_cons, List.length_singleton]
    omega
  rw [hsource, hopen, h _ _ _ (by omega), hclose, hplace]

end IsBalanced

theorem closingFrom_of_isBalanced {text : Text} (h : IsBalanced text) (place : Nat) :
    closingFrom .code 1 place (text ++ '\x7d' :: rest) = some (place + text.length) := by
  rw [h 1 place _ (Int.le_refl 1)]
  simp [closingFrom]

theorem isBalanced_of_tailChar {text : Text} (h : ∀ c ∈ text, isTailChar c) : IsBalanced text := by
  have hall : ∀ c ∈ "'/\x7b\x7d".toList, isTailChar c = false := by decide
  refine .of_forall fun c hc hmem => ?_
  have hchar := h c hc
  rw [hall c hmem] at hchar
  cases hchar

theorem isBalanced_signature {signature : Signature} (h : signature.IsPlain) :
    IsBalanced signature.source := by
  refine isBalanced_of_tailChar (List.forall_mem_append.mpr ⟨fun c hc => ?_, isTailChar_tail h⟩)
  exact isTailChar_of_letter (toLower_of_isOneOf isLowerName_visibility h.visibility c hc)

theorem isBalanced_identifier {name : Text} (h : IsIdentifier name) : IsBalanced name :=
  isBalanced_of_tailChar fun c hc => by
    simp [isTailChar, isArgumentChar, isDottedChar, h.ascii c hc]

theorem isBalanced_annotations {annotations : List Text}
    (h : ∀ name ∈ annotations, IsIdentifier name) :
    IsBalanced (annotationsSource annotations) := by
  induction annotations with
  | nil => exact .nil
  | cons name annotations ih =>
    obtain ⟨hname, hannotations⟩ := List.forall_mem_cons.mp h
    have hspace : IsBalanced [' '] := .of_forall (by decide)
    exact .append (.cons (by decide) ((isBalanced_identifier hname).append hspace))
      (ih hannotations)

theorem classHead_eq (name : Text) : classHead name = "public class ".toList ++ name ++ [' '] ++
    ['\x7b'] :=
  (List.append_assoc _ [' '] ['\x7b']).symm

theorem isBalanced_blanks {text : Text} (h : ∀ c ∈ text, Text.isBlank c) : IsBalanced text := by
  have hall : ∀ c ∈ "'/\x7b\x7d".toList, Text.isBlank c = false := by decide
  refine .of_forall fun c hc hmem => ?_
  have hblank := h c hc
  rw [hall c hmem] at hblank
  cases hblank

theorem isBalanced_lineComment {text : Text} (h : '\n' ∉ text) : IsBalanced (lineComment text) := by
  have hinside (depth : Int) (place : Nat) (rest : Text) : closingFrom .lineComment depth place
    (text ++ '\n' :: rest) =
      closingFrom .code depth (place + text.length + 1) rest := by
    induction text generalizing place with
    | nil => simp [closingFrom]
    | cons c text ih =>
      have hc : (c == '\n') = false := beq_false_of_ne (List.ne_of_not_mem_cons h).symm
      have hstep : closingFrom .lineComment depth place (c :: (text ++ '\n' :: rest)) =
          closingFrom .lineComment depth (place + 1) (text ++ '\n' :: rest) := by
        simp [closingFrom, hc]
      rw [List.cons_append, hstep, ih (List.not_mem_of_not_mem_cons h), List.length_cons,
        Nat.add_assoc place, Nat.add_comm 1]
  intro depth place rest _
  have hopen : closingFrom .code depth place (lineComment text ++ rest) =
      closingFrom .lineComment depth (place + 2) (text ++ '\n' :: rest) := by
    simp [lineComment, closingFrom]
  have hlength : place + (lineComment text).length = place + 2 + text.length + 1 := by
    simp only [lineComment, List.length_cons, List.length_append, List.length_nil]
    omega
  rw [hopen, hinside, hlength]

theorem isBalanced_blockComment {text : Text} (h : ¬ ['*', '/'] <:+: text) :
    IsBalanced (blockComment text) := by
  have hinside (depth : Int) (place : Nat) (rest : Text) :
      closingFrom .blockComment depth place (text ++ '*' :: '/' :: rest) =
        closingFrom .code depth (place + text.length + 2) rest := by
    induction text generalizing place with
    | nil => simp [closingFrom]
    | cons c text ih =>
      have hstep : closingFrom .blockComment depth place (c :: (text ++ '*' :: '/' :: rest)) =
          closingFrom .blockComment depth (place + 1) (text ++ '*' :: '/' :: rest) := by
        rw [closingFrom]
        rintro more rfl hmore
        refine h ?_
        cases text with
        | nil => cases hmore
        | cons d text =>
          obtain ⟨rfl, -⟩ := List.cons.inj hmore
          exact ⟨[], text, rfl⟩
      have htext : ¬ ['*', '/'] <:+: text :=
        fun hmem => h (hmem.trans (List.suffix_cons c text).isInfix)
      rw [List.cons_append, hstep, ih htext, List.length_cons]
      congr 1
      omega
  intro depth place rest _
  have hopen : closingFrom .code depth place (blockComment text ++ rest) =
      closingFrom .blockComment depth (place + 2) (text ++ '*' :: '/' :: rest) := by
    simp [blockComment, closingFrom]
  have hlength : place + (blockComment text).length = place + 2 + text.length + 2 := by
    simp only [blockComment, List.length_cons, List.length_append, List.length_nil]
    omega
  rw [hopen, hinside, hlength]

theorem isBalanced_filler {filler : Filler} (h : filler.IsOrdinary) : IsBalanced filler.source := by
  cases filler with
  | blanks text => exact isBalanced_blanks h
  | line text => exact isBalanced_lineComment h.1
  | block text => exact isBalanced_blockComment h.1

mutual
theorem isBalanced_entry : (entry : Entry) → entry.IsPlain → IsBalanced entry.source
  | .filler filler, h => by
    rw [Entry.IsPlain] at h
    rw [Entry.source]
    exact isBalanced_filler h
  | .property signature, h => by
    rw [Entry.IsPlain] at h
    have haccessors : IsBalanced ([' '] ++ ('\x7b' :: " get; set; ".toList ++ ['\x7d'])) :=
      .append (.of_forall (by decide)) (.braces (.of_forall (by decide)))
    rw [Entry.source, Member.source]
    exact (isBalanced_signature h).append haccessors
  | .method annotations signature parameters, h => by
    rw [Entry.IsPlain] at h
    obtain ⟨hannotations, hsignature, hparameters⟩ := h
    have hinside : IsBalanced parameters :=
      isBalanced_of_tailChar fun c hc => by simp [isTailChar, hparameters.chars c hc]
    have hbody : IsBalanced (")".toList ++ ([' '] ++ ('\x7b' :: [' '] ++ ['\x7d']))) :=
      .append (.of_forall (by decide))
        (.append (.of_forall (by decide)) (.braces (.of_forall (by decide))))
    rw [Entry.source, Member.source]
    exact ((isBalanced_annotations hannotations).append (isBalanced_signature hsignature)).append
      (.cons (by decide) (hinside.append hbody))
  | .inner name entries, h => by
    rw [Entry.IsPlain] at h
    have hfront : IsBalanced ("public class ".toList ++ name ++ [' ']) :=
      .append (.append (.of_forall (by decide)) (isBalanced_identifier h.1))
        (.of_forall (by decide))
    have hsource : (Entry.inner name entries).source =
        "public class ".toList ++ name ++ [' '] ++
          ('\x7b' :: entriesSource entries ++ ['\x7d']) := by
      rw [Entry.source, classHead_eq]
      simp only [List.append_assoc, List.cons_append, List.nil_append]
    rw [hsource]
    exact hfront.append (isBalanced_entries entries h.2).braces

theorem isBalanced_entries : (entries : List Entry) → EntriesArePlain entries →
    IsBalanced (entriesSource entries)
  | [], _ => .nil
  | entry :: entries, h => by
    rw [EntriesArePlain] at h
    rw [entriesSource]
    exact (isBalanced_entry entry h.1).append (isBalanced_entries entries h.2)
end

section Keyword
variable {κ : Type} {groups : List (κ × Span)} {goOn : Place κ → Option (Place κ)}

/-- None of the names begins with the character ahead. -/
theorem run_keyword_none {names : List String} (hlower : ∀ name ∈ names, IsLowerName name.toList)
    (hne : ∀ name ∈ names, name.toList ≠ []) {text : Text}
    (h : ∀ c ∈ text.head?, c.toNat < 128 ∧ ∀ name ∈ names, name.toList.head? ≠ some c.toLower) :
    (keyword names).run ⟨between before text, groups⟩ goOn = none := by
  refine Option.eq_none_iff_forall_ne_some.mpr fun last hlast => ?_
  obtain ⟨there, hleads, -⟩ := exists_leads hlast
  obtain ⟨pattern, hpattern, hleads⟩ := hleads.firstOf_inv
  obtain ⟨name, hname, rfl⟩ := List.mem_map.mp hpattern
  obtain ⟨word, hrest, hsame⟩ := hleads.caseless_inv
  have hletters := hlower name hname
  have hnonempty := hne name hname
  have hhead (c : Char) (hc : c ∈ text.head?) := (h c hc).2 name hname
  generalize name.toList = letters at hsame hhead hletters hnonempty
  cases hsame with
  | nil => exact hnonempty rfl
  | @cons d e letters word hd _ =>
    have he : e ∈ text.head? := by
      rw [show text = e :: word ++ there.cursor.rest from hrest]
      rfl
    rw [sameUpToCase_iff (hletters d List.mem_cons_self) (h e he).1] at hd
    exact hhead e he (hd ▸ rfl)

end Keyword

/-- What can stand between the visibility of a class and the word that begins it. -/
def classWords : Pattern Unit :=
  maybe (keyword ["with", "without", "inherited"] ++ blanks ++ anyCase "sharing" ++ blanks) ++
    maybe (keyword ["virtual", "abstract"] ++ blanks)

def classFront : Pattern Unit := maybe (visibility ++ blanks) ++ classWords

def classBack : Pattern Unit :=
  blanks ++ group () (plus wordChar) ++ star (one fun c => c != '\x7b' && c != ';') ++ char '\x7b'

theorem classPattern_run {here : Place Unit} {goOn : Place Unit → Option (Place Unit)} :
    classPattern.run here goOn = wordEdge.run here fun middle => classFront.run middle fun there =>
      (anyCase "class").run there fun behind => classBack.run behind goOn := by
  simp only [classPattern, classFront, classWords, classBack, run_append]

theorem isLowerName_classWord :
    ∀ name ∈ ["with", "without", "inherited", "virtual", "abstract", "sharing", "class"],
      IsLowerName name.toList := by
  have hall : ∀ name ∈ ["with", "without", "inherited", "virtual", "abstract", "sharing", "class"],
    ∀ c ∈ name.toList, c.isLower := by decide
  exact hall

theorem passesOnly_classFront : PassesOnly isUnmarked classFront := by
  have hkeyword (names : List String)
      (h : names ⊆ ["with", "without", "inherited", "virtual", "abstract", "sharing", "class"]) :
      PassesOnly isUnmarked (keyword names ++ blanks : Pattern Unit) :=
    (passesOnly_keyword fun name hname => isLowerName_classWord name (h hname)).append
      passesOnly_blanks
  have hvisibility : PassesOnly isUnmarked (visibility ++ blanks : Pattern Unit) :=
    (passesOnly_keyword isLowerName_visibility).append passesOnly_blanks
  have hsharing : PassesOnly isUnmarked (anyCase "sharing" : Pattern Unit) :=
    passesOnly_anyCase (isLowerName_classWord "sharing" (by decide))
  have hwith := (hkeyword ["with", "without", "inherited"] (by decide)).append hsharing |>.append
    passesOnly_blanks
  exact hvisibility.maybe.append
    (hwith.maybe.append (hkeyword ["virtual", "abstract"] (by decide)).maybe)

theorem isLowerName_class : IsLowerName "class".toList :=
  isLowerName_of_mem "class" List.mem_cons_self

/-- No class begins in front of a closing brace with no such word before it. -/
theorem matchAt_class_none {passed : Text} (hpassed : ∀ c ∈ passed, c.toNat < 128)
    (hfree : IsFreeOf ["class"] passed) :
    classPattern.matchAt (between before (passed ++ '\x7d' :: rest)) = none := by
  refine Option.eq_none_iff_forall_ne_some.mpr fun hit hhit => ?_
  rw [matchAt, Option.map_eq_some_iff] at hhit
  obtain ⟨last, hrun, -⟩ := hhit
  rw [classPattern_run, run_wordEdge] at hrun
  split_ifs at hrun
  obtain ⟨middle, hfront, hrun⟩ := exists_leads hrun
  obtain ⟨there, hclass, -⟩ := exists_leads hrun
  obtain ⟨front, hrest, hunmarked⟩ := passesOnly_classFront hfront
  obtain ⟨unmarked, hrest', hunmarked'⟩ := passesOnly_anyCase isLowerName_class hclass
  obtain ⟨word, hword, hsame⟩ := hclass.caseless_inv
  obtain rfl : unmarked = word := List.append_cancel_right (hrest'.symm.trans hword)
  have hbrace : '\x7d' ∉ front ++ unmarked := by
    intro hmem
    exact absurd (List.forall_mem_append.mpr ⟨hunmarked, hunmarked'⟩ _ hmem) (by decide)
  have hbegins : front ++ unmarked <+: passed := by
    have hsource : front ++ unmarked ++ there.cursor.rest = passed ++ '\x7d' :: rest := by
      rw [List.append_assoc, ← hword, ← hrest]
      rfl
    exact isPrefix_of_not_mem hbrace ⟨_, hsource⟩
  have hpart : unmarked <:+: passed :=
    (List.suffix_append front unmarked).isInfix.trans hbegins.isInfix
  refine hfree "class" List.mem_cons_self ?_
  rw [← toLower_of_sameUpToCase isLowerName_class (fun c hc => hpassed c (hpart.subset hc)) hsame]
  exact hpart.map _

theorem run_classWords_none {text : Text} (h : text.head? = some 'c') {groups : List (Unit × Span)}
    {goOn : Place Unit → Option (Place Unit)} : classWords.run ⟨between before text, groups⟩ goOn =
      goOn ⟨between before text, groups⟩ := by
  have hnone (names : List String)
    (hnames : names ⊆ ["with", "without", "inherited", "virtual", "abstract"])
      {groups : List (Unit × Span)} {goOn : Place Unit → Option (Place Unit)} :
      (keyword names : Pattern Unit).run ⟨between before text, groups⟩ goOn = none := by
    have hall : ∀ name ∈ ["with", "without", "inherited", "virtual", "abstract"], name.toList ≠ [] ∧
        name.toList.head? ≠ some 'c' := by decide
    have hlower : ["with", "without", "inherited", "virtual", "abstract"] ⊆
        ["with", "without", "inherited", "virtual", "abstract", "sharing", "class"] := by decide
    refine run_keyword_none (fun name hname => isLowerName_classWord name (hlower (hnames hname)))
      (fun name hname => (hall name (hnames hname)).1) fun c hc => ?_
    obtain rfl := Option.some.inj (h.symm.trans hc)
    exact ⟨by decide, fun name hname => (hall name (hnames hname)).2⟩
  simp only [classWords, run_append, run_maybe, hnone ["with", "without", "inherited"] (by decide),
    hnone ["virtual", "abstract"] (by decide), Option.none_or]

theorem matchAt_class_edge {text : Text} (hbefore : before.any Text.isWord = false)
    (h : ∀ c ∈ text.head?, Text.isWord c = false) : classPattern.matchAt (between before text) =
    none := by
  have hhead : text.head?.any Text.isWord = false := by
    cases text with
    | nil => rfl
    | cons c text => exact h c rfl
  rw [matchAt, classPattern_run, run_wordEdge, hbefore, hhead]
  rfl

theorem quiet_class_blanks {blanks : Text} (hbefore : before.any Text.isWord = false)
    (h : ∀ c ∈ blanks, Text.isBlank c) : Quiet classPattern before blanks rest := by
  induction blanks generalizing before with
  | nil => trivial
  | cons c blanks ih =>
    obtain ⟨hc, hblanks⟩ := List.forall_mem_cons.mp h
    refine ⟨matchAt_class_edge hbefore ?_, ih (Text.isWord_of_isBlank hc) hblanks⟩
    rintro d ⟨⟩
    exact Text.isWord_of_isBlank hc

theorem quiet_class {passed : Text} (hpassed : ∀ c ∈ passed, c.toNat < 128)
    (hfree : IsFreeOf ["class"] passed) :
    Quiet classPattern before (passed ++ ['\x7d']) rest := by
  induction passed generalizing before with
  | nil => exact ⟨matchAt_class_none hpassed hfree, trivial⟩
  | cons c passed ih =>
    refine ⟨?_, ih (List.forall_mem_cons.mp hpassed).2
      (hfree.of_isInfix (List.suffix_cons c passed).isInfix)⟩
    have hsource : c :: (passed ++ ['\x7d'] ++ rest) = (c :: passed) ++ '\x7d' :: rest := by simp
    change classPattern.matchAt (between before (c :: (passed ++ ['\x7d'] ++ rest))) = none
    rw [hsource]
    exact matchAt_class_none hpassed hfree

theorem isFree_annotations {annotations : List Text} (h : ∀ name ∈ annotations, IsIdentifier name)
    (hrest : IsFreeOf ["class"] rest) :
    IsFreeOf ["class"] (annotationsSource annotations ++ rest) := by
  have hlower : ∀ name ∈ ["class"], IsLowerName name.toList :=
    List.forall_mem_singleton.mpr isLowerName_class
  induction annotations with
  | nil => exact hrest
  | cons name annotations ih =>
    obtain ⟨hname, hannotations⟩ := List.forall_mem_cons.mp h
    have hat : EndsWord '@' := by decide
    have hsource : annotationsSource (name :: annotations) ++ rest =
        '@' :: (name ++ ' ' :: (annotationsSource annotations ++ rest)) := by
      simp [annotationsSource]
    rw [hsource]
    exact .cons hlower hat (.append_cons hlower endsWord_space (hname.free.mono (by simp))
      (ih hannotations)) (by decide)

theorem isFree_visibility {word : Text} (h : IsOneOf visibilityNames word) :
    IsFreeOf ["class"] word := by
  have hall : ∀ name ∈ visibilityNames, ¬ "class".toList <:+: name.toList := by decide
  obtain ⟨name, hname, hlower⟩ := List.mem_map.mp h
  refine List.forall_mem_singleton.mpr ?_
  rw [← hlower]
  exact hall name hname

theorem toNat_lt_annotationsSource {annotations : List Text}
    (h : ∀ name ∈ annotations, IsIdentifier name) :
    ∀ c ∈ annotationsSource annotations, c.toNat < 128 := by
  intro c hc
  obtain ⟨name, hname, hc⟩ := List.mem_flatMap.mp hc
  rcases List.mem_append.mp hc with hc | hc
  · rcases List.mem_cons.mp hc with rfl | hc
    · decide
    · exact Markup.toNat_lt_of_isNamePart ((h name hname).ascii c hc)
  · rw [List.mem_singleton.mp hc]
    decide

theorem quiet_class_signature {signature : Signature} {annotations : List Text} {ending : Text}
    (h : signature.IsPlain)
    (hannotations : ∀ name ∈ annotations, IsIdentifier name) (hending : IsLineEnd ending) :
    Quiet classPattern before (annotationsSource annotations ++
      (signature.source ++ (ending ++ ['\x7d']))) rest := by
  have hlower : ∀ name ∈ ["class"], IsLowerName name.toList :=
    List.forall_mem_singleton.mpr isLowerName_class
  have hletters := toLower_of_isOneOf isLowerName_visibility h.visibility
  have hsource : annotationsSource annotations ++ (signature.source ++ (ending ++ ['\x7d'])) =
      (annotationsSource annotations ++ (signature.visibility ++ (signature.tail ++ ending))) ++
        ['\x7d'] := by
    simp [Signature.source]
  rw [hsource]
  refine quiet_class ?_ (isFree_annotations hannotations ?_)
  · refine List.forall_mem_append.mpr ⟨toNat_lt_annotationsSource hannotations,
      List.forall_mem_append.mpr ⟨?_, ?_⟩⟩
    · exact fun c hc => toNat_lt_of_toLower (toNat_lt_of_isLower (hletters c hc))
    · refine List.forall_mem_append.mpr
        ⟨fun c hc => ?_, fun c hc => toNat_lt_of_isLineChar (hending.chars c hc)⟩
      exact toNat_lt_of_isTailChar (isTailChar_tail h c hc)
  · obtain ⟨words, hwords⟩ : ∃ words, signature.tail ++ ending = ' ' :: words := ⟨_, rfl⟩
    have hfree : IsFreeOf ["class"] (signature.tail ++ ending) :=
      (hending.isFree_tail h).mono (by simp)
    rw [hwords] at hfree ⊢
    exact .append_cons hlower endsWord_space (isFree_visibility h.visibility)
      (hfree.of_isInfix (List.suffix_cons ' ' words).isInfix)

/-- The place is in front of the word of a class and of a blank behind it. -/
def IsAtClass (here : Place Unit) : Prop :=
  ∃ there, Leads (anyCase "class") here there ∧ ∃ c more, there.cursor.rest = c :: more ∧
    Text.isBlank c

section Inside
variable {comment front : Text} {stop : Char} {here middle there : Place Unit} {names : List String}

/-- The place is inside a comment, behind `front` and with `rest` after the comment. -/
def IsInside (comment rest : Text) (stop : Char) (front : Text) (here : Place Unit) : Prop :=
  ∃ text, comment = front ++ (text ++ [stop]) ∧ here.cursor.rest = text ++ stop :: rest

theorem IsInside.of_keyword (hstop : IsStop stop) (h : IsInside comment rest stop front here)
    (hlower : ∀ name ∈ names, IsLowerName name.toList) (hleads : Leads (keyword names) here there) :
    ∃ word, IsInside comment rest stop (front ++ word) there := by
  obtain ⟨text, rfl, hhere⟩ := h
  obtain ⟨pattern, hpattern, hleads⟩ := hleads.firstOf_inv
  obtain ⟨name, hname, rfl⟩ := List.mem_map.mp hpattern
  obtain ⟨word, hword, hsame⟩ := hleads.caseless_inv
  obtain ⟨left, rfl, hleft⟩ :=
    exists_left (hstop.not_mem (hlower name hname) hsame) (hhere.symm.trans hword)
  exact ⟨word, left, by simp only [List.append_assoc], hleft⟩

theorem not_isEntryStart {c d : Char} (hc : c ∈ "svac".toList) (h : Text.sameUpToCase c d) :
    isEntryStart d = false := by
  have hall : ∀ d ∈ "/@pgPG".toList, d.toNat < 128 ∧ d.toLower ∉ "svac".toList := by decide
  have hlower : ∀ c ∈ "svac".toList, c.isLower := by decide
  rw [← Bool.not_eq_true]
  intro hstart
  obtain ⟨hascii, hnot⟩ := hall d (List.contains_iff_mem.mp hstart)
  rw [(sameUpToCase_iff (hlower c hc) hascii).mp h] at hnot
  exact hnot hc

/-- The text ahead of a comment begins with none of these words, so behind blanks such a word is in
the comment. -/
theorem IsInside.of_blanks (h : IsInside comment rest stop front here) (hahead : IsAhead rest)
    (hfirst : ∀ name ∈ names, name.toList.head?.any ("svac".toList.contains ·))
    (hblanks : Leads blanks here middle)
    (hleads : Leads (keyword names) middle there) :
    ∃ gap c, Text.isBlank c ∧ IsInside comment rest stop (front ++ (gap ++ [c])) middle := by
  obtain ⟨text, rfl, hhere⟩ := h
  obtain ⟨gap, hrest, hne, hgap⟩ := hblanks.plusOne_inv
  obtain ⟨passed, last, rfl⟩ := (List.eq_nil_or_concat' gap).resolve_left hne
  refine ⟨passed, last, hgap last (by simp), ?_⟩
  obtain ⟨pattern, hpattern, hleads⟩ := hleads.firstOf_inv
  obtain ⟨name, hname, rfl⟩ := List.mem_map.mp hpattern
  obtain ⟨word, hword, hsame⟩ := hleads.caseless_inv
  obtain ⟨c, hhead, hc⟩ : ∃ c, name.toList.head? = some c ∧ c ∈ "svac".toList := by
    have hfirst := hfirst name hname
    cases hhead : name.toList.head? with
    | none => simp [hhead] at hfirst
    | some c =>
      rw [hhead] at hfirst
      exact ⟨c, rfl, List.contains_iff_mem.mp hfirst⟩
  obtain ⟨letters, hletters⟩ := List.head?_eq_some_iff.mp hhead
  rw [hletters] at hsame
  cases hsame with
  | @cons _ d _ word hd _ =>
    have hlower : ∀ c ∈ "svac".toList, c.isLower := by decide
    have hblank : Text.isBlank d = false := isBlank_of_sameUpToCase (hlower c hc) hd
    have hsource : text ++ stop :: rest = passed ++ [last] ++
      (d :: (word ++ there.cursor.rest)) := by
      rw [← hhere, hrest, hword, List.cons_append]
    rcases List.append_eq_append_iff.mp hsource with ⟨more, hmore, hbehind⟩ | ⟨left, rfl, hleft⟩
    · cases more with
      | nil =>
        rw [List.append_nil] at hmore
        exact ⟨[], by rw [hmore, List.nil_append, List.append_assoc], by
          rw [hword, hbehind, List.cons_append]; rfl⟩
      | cons e more =>
        have hmiddle : rest = more ++ d :: (word ++ there.cursor.rest) := (List.cons.inj hbehind).2
        have hblanks : ∀ c ∈ more, Text.isBlank c := fun c hc => hgap c (by rw [hmore]; simp [hc])
        rw [IsAhead, hmiddle, List.dropWhile_append_of_pos hblanks,
          List.dropWhile_cons_of_neg (by simp [hblank])] at hahead
        have hstart := hahead d rfl
        rw [not_isEntryStart hc hd] at hstart
        cases hstart
    · exact ⟨left, by simp only [List.append_assoc], by rw [hword, List.cons_append, hleft]⟩

section Wordless
variable (hstop : IsStop stop) (h : IsWordless comment)
    (hhere : IsInside comment rest stop front here)
include hstop h hhere

theorem isWord_of_isAtClass (hclass : IsAtClass here) :
    (behind none front).any Text.isWord ∧ here.cursor.rest.head?.any Text.isWord := by
  obtain ⟨there, hleads, c, more, hmore, hc⟩ := hclass
  obtain ⟨text, hsplit, hhere⟩ := hhere
  obtain ⟨word, hword, hsame⟩ := hleads.caseless_inv
  rw [hmore] at hword
  obtain ⟨left, hleft⟩ :=
    exists_behind (hstop.not_mem isLowerName_class hsame) (hhere.symm.trans hword)
  refine ⟨h.isWord_of_class hsame hc (hleft ▸ hsplit), ?_⟩
  rw [hword]
  exact isWord_head?_class hsame _

variable (hahead : IsAhead rest)
include hahead

/-- Behind a blank no class begins in the comment. -/
theorem not_isAtClass_of_blanks (hblanks : Leads blanks here middle) : ¬IsAtClass middle := by
  intro hclass
  have ⟨there, hleads, _⟩ := hclass
  have hfirst : ∀ name ∈ ["class"], name.toList.head?.any ("svac".toList.contains ·) := by decide
  obtain ⟨gap, c, hc, hmiddle⟩ := hhere.of_blanks hahead hfirst hblanks hleads
  have hword := (isWord_of_isAtClass hstop h hmiddle hclass).1
  rw [← List.append_assoc, behind_concat, Option.any_some, Text.isWord_of_isBlank hc] at hword
  cases hword

theorem not_isAtClass_of_keyword (hlower : ∀ name ∈ names, IsLowerName name.toList)
    (hleads : Leads (keyword names ++ blanks) here middle) : ¬IsAtClass middle := by
  obtain ⟨behindWord, hword, hblanks⟩ := leads_append.mp hleads
  obtain ⟨word, hinside⟩ := hhere.of_keyword hstop hlower hword
  exact not_isAtClass_of_blanks hstop h hinside hahead hblanks

theorem eq_of_classWords (hwords : Leads classWords here middle) (hclass : IsAtClass middle) :
    middle = here := by
  have hlower (names : List String)
      (hnames : names ⊆ ["with", "without", "inherited", "virtual", "abstract", "sharing",
        "class"]) :
      ∀ name ∈ names, IsLowerName name.toList :=
        fun name hname => isLowerName_classWord name (hnames hname)
  obtain ⟨behindSharing, hsharing, hmaybe⟩ := leads_append.mp hwords
  rcases leads_maybe.mp hsharing with hsharing | rfl
  · obtain ⟨p₃, hsharing, hblanks'⟩ := leads_append.mp hsharing
    obtain ⟨p₂, hsharing, hword'⟩ := leads_append.mp hsharing
    obtain ⟨p₁, hword, hblanks⟩ := leads_append.mp hsharing
    have hword' : Leads (keyword ["sharing"]) p₂ p₃ := hword'
    obtain ⟨word, h₁⟩ := hhere.of_keyword hstop (hlower _ (by decide)) hword
    obtain ⟨gap, c, -, h₂⟩ := h₁.of_blanks hahead (by decide) hblanks hword'
    obtain ⟨word', h₃⟩ := h₂.of_keyword hstop (hlower _ (by decide)) hword'
    rcases leads_maybe.mp hmaybe with hmaybe | rfl
    · obtain ⟨behindWord, hvirtual, -⟩ := leads_append.mp hmaybe
      obtain ⟨gap', c', -, h₄⟩ := h₃.of_blanks hahead (by decide) hblanks' hvirtual
      exact absurd hclass (not_isAtClass_of_keyword hstop h h₄ hahead (hlower _ (by decide)) hmaybe)
    · exact absurd hclass (not_isAtClass_of_blanks hstop h h₃ hahead hblanks')
  · rcases leads_maybe.mp hmaybe with hmaybe | rfl
    · exact absurd hclass (not_isAtClass_of_keyword hstop h hhere hahead (hlower _ (by decide))
        hmaybe)
    · rfl

end Wordless

end Inside

theorem begins_classBack : Begins classBack Text.isBlank :=
  (( begins_blanks.append _).append _).append _

/-- A text without such words that ends as comments do, or with a blank. -/
structure IsPassage (text : Text) : Prop where
  shape : ∃ inside stop, text = inside ++ [stop] ∧ IsStop stop
  wordless : IsWordless text

theorem IsComment.isPassage {comment : Text} (h : IsComment comment) : IsPassage comment := by
  obtain ⟨inside, stop, hshape, hstop⟩ := h.shape
  exact ⟨⟨'/' :: inside, stop, hshape, hstop⟩, h.ordinary.isWordless⟩

theorem quiet_class_passage {comment : Text} (h : IsPassage comment) (hahead : IsAhead rest) :
    Quiet classPattern before comment rest := by
  refine quiet_of_forall fun front c more hsplit => ?_
  obtain ⟨inside, stop, hshape, hstop⟩ := h.shape
  obtain ⟨text, htext⟩ := exists_stop (hshape.symm.trans hsplit) (List.cons_ne_nil c more)
  rw [htext] at hsplit
  have hsource : c :: (more ++ rest) = text ++ stop :: rest := by
    rw [← List.cons_append, htext, List.append_assoc, List.singleton_append]
  refine Option.eq_none_iff_forall_ne_some.mpr fun hit hhit => ?_
  rw [hsource, matchAt, Option.map_eq_some_iff] at hhit
  obtain ⟨place, hrun, -⟩ := hhit
  rw [classPattern_run, run_wordEdge] at hrun
  split_ifs at hrun with hedge
  have hvisibility {goOn : Place Unit → Option (Place Unit)} :
    (visibility ++ blanks : Pattern Unit).run
      ⟨between (behind before front) (text ++ stop :: rest), []⟩ goOn = none :=
    run_visibility_wordless hstop hsplit h.wordless fun _ _ hlast => begins_blanks.exists_cons hlast
  rw [classFront, run_append, run_maybe, hvisibility, Option.none_or] at hrun
  obtain ⟨middle, hwords, hrun⟩ := exists_leads hrun
  obtain ⟨there, hclass, hrun⟩ := exists_leads hrun
  have hclass : IsAtClass middle := ⟨there, hclass, begins_classBack.exists_cons hrun⟩
  have hinside : IsInside comment rest stop front
    ⟨between (behind before front) (text ++ stop :: rest), []⟩ :=
    ⟨text, hsplit, rfl⟩
  obtain rfl := eq_of_classWords hstop h.wordless hinside hahead hwords hclass
  obtain ⟨hbehind, hhead⟩ := isWord_of_isAtClass hstop h.wordless hinside hclass
  cases front with
  | nil => cases hbehind
  | cons d front =>
    rw [behind_cons] at hbehind hedge
    rw [hbehind, show (text ++ stop :: rest).head?.any Text.isWord = true from hhead] at hedge
    cases hedge

theorem quiet_class_filler {filler : Filler} (h : filler.IsOrdinary)
    (hbefore : before.any Text.isWord = false)
    (hahead : IsAhead rest) : Quiet classPattern before filler.source rest := by
  cases filler with
  | blanks text => exact quiet_class_blanks hbefore h
  | line text => exact quiet_class_passage (isComment_line h).isPassage hahead
  | block text => exact quiet_class_passage (isComment_block h).isPassage hahead

theorem isWord_behind_concat {text : Text} {c : Char} (hc : Text.isWord c = false)
    (before : Option Char) :
    (behind before (text ++ [c])).any Text.isWord = false := by
  rw [behind_concat]
  exact hc

theorem isWord_behind_passage {text : Text} (h : IsPassage text) (before : Option Char) :
    (behind before text).any Text.isWord = false := by
  obtain ⟨inside, stop, rfl, hstop⟩ := h.shape
  exact isWord_behind_concat hstop.isWord before

theorem isWord_behind_filler {filler : Filler} (h : filler.IsOrdinary)
    (hbefore : before.any Text.isWord = false) :
    (behind before filler.source).any Text.isWord = false := by
  cases filler with
  | blanks text =>
    rcases List.eq_nil_or_concat' text with rfl | ⟨passed, last, rfl⟩
    · exact hbefore
    · exact isWord_behind_concat (Text.isWord_of_isBlank (h last (by simp))) before
  | line text => exact isWord_behind_passage (isComment_line h).isPassage before
  | block text => exact isWord_behind_passage (isComment_block h).isPassage before

theorem exists_matchAt_class {name : Text} (h : IsIdentifier name)
    (hbefore : before.any Text.isWord = false)
    (rest : Text) : ∃ hit,
    classPattern.matchAt (between before (classHead name ++ rest)) = some hit ∧
      hit.start = between before (classHead name ++ rest) ∧ hit.stop = between (some '\x7b') rest ∧
        hit.group () = name := by
  let behindName := [' '] ++ '\x7b' :: rest
  let behindClass := ' ' :: (name ++ behindName)
  have hsource : classHead name ++ rest = "public".toList ++
    ' ' :: ("class".toList ++ behindClass) := by
    rw [classHead_eq]
    simp only [List.append_assoc, List.cons_append, List.nil_append]
    rfl
  let last : Place Unit := ⟨between (some '\x7b') rest,
    [((), (between (some ' ') (name ++ behindName)).spanTo
    (between (behind (some ' ') name) behindName))]⟩
  have hspace : ∀ c ∈ [' '], Text.isBlank c := by decide
  have hback : ∀ before, classBack.run ⟨between before behindClass, []⟩ some = some last := by
    intro before
    refine run_plusOne_of_some (List.cons_ne_nil ' ' []) hspace (fun c hc => (head?_name h c hc).1)
      ?_
    refine run_plusOne_of_some h.nonempty (fun c hc => Markup.isWord_of_isNamePart (h.ascii c hc))
      ?_ ?_
    · rintro c ⟨⟩
      decide
    · refine run_starOne_of_some (by decide) ?_ rfl
      rintro c ⟨⟩
      decide
  have hclass : classWords.run ⟨between (some ' ') ("class".toList ++ behindClass), []⟩
      (fun there => (anyCase "class").run there fun behind => classBack.run behind some) =
        some last := by
    change classWords.run ⟨between (some ' ') ('c' :: ("lass".toList ++ behindClass)), []⟩ _ = _
    rw [run_classWords_none rfl]
    exact (run_caseless_append _ _).trans (hback _)
  have hfront : classFront.run ⟨between before (classHead name ++ rest), []⟩
      (fun there => (anyCase "class").run there fun behind => classBack.run behind some) =
        some last := by
    have hpublic : IsOneOf visibilityNames "public".toList := by decide
    have hblanks : ∀ before, (blanks : Pattern Unit).run
      ⟨between before ([' '] ++ ("class".toList ++ behindClass)), []⟩
        (fun middle => classWords.run middle fun there => (anyCase "class").run there fun behind =>
          classBack.run behind some) = some last := by
      refine fun before => run_plusOne_of_some (List.cons_ne_nil ' ' []) hspace ?_ hclass
      rintro c ⟨⟩
      decide
    rw [hsource, classFront, run_append, run_maybe, run_append, run_visibility hpublic]
    exact (congrArg (Option.or · _) (hblanks _)).trans Option.some_or
  refine ⟨⟨between before (classHead name ++ rest), last.cursor, last.groups⟩, ?_, rfl, rfl, ?_⟩
  · have hedge : (before.any Text.isWord != (classHead name ++ rest).head?.any Text.isWord) =
      true := by
      rw [hbefore]
      rfl
    rw [matchAt, classPattern_run, run_wordEdge, if_pos hedge, hfront]
    rfl
  · exact spanTo_text _ _ _ _

end Visualforce.Apex
