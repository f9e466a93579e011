import Visualforce.Proofs.Apex.Braces
import Visualforce.Proofs.Apex.RoundTrip
import Visualforce.Proofs.Pattern.Confined

/-! # Inner classes on their own

The declaration of an inner class runs from its first word to the brace that closes it, or to the
end of the body it stands in. Nothing outside this piece is looked at when the class is read: the
words up to the opening brace are matched the same whatever stands before and behind them, and
counting braces ends at the closing one. So the piece alone, taken for a source, gives the same
class, at every depth.
-/
namespace Visualforce.Apex
open Pattern Cursor

variable {before : Option Char} {text rest : Text} {hit : Hit Unit}

theorem isWord_of_leads_keyword {names : List String} {here there : Place Unit}
    (hnames : ∀ name ∈ names, IsLowerName name.toList ∧ name.toList ≠ [])
    (h : Leads (keyword names) here there) :
    here.cursor.rest.head?.any Text.isWord := by
  obtain ⟨pattern, hpattern, hleads⟩ := h.firstOf_inv
  obtain ⟨name, hname, rfl⟩ := List.mem_map.mp hpattern
  obtain ⟨word, hrest, hsame⟩ := hleads.caseless_inv
  obtain ⟨hlower, hne⟩ := hnames name hname
  generalize name.toList = letters at hsame hlower hne
  rw [hrest]
  cases hsame with
  | nil => contradiction
  | cons hc _ => exact isWord_of_sameUpToCase (hlower _ List.mem_cons_self) hc

/-- A declaration up to its opening brace. -/
def classHeading : Pattern Unit :=
  classFront ++ anyCase "class" ++ blanks ++ group () (plus wordChar) ++
    star (one fun c => c != '\x7b' && c != ';')

theorem classPattern_run_heading {here : Place Unit} {goOn : Place Unit → Option (Place Unit)} :
    classPattern.run here goOn = wordEdge.run here fun middle =>
      classHeading.run middle fun there =>
      (char '\x7b').run there goOn := by
  simp only [classPattern, classHeading, classFront, classWords, run_append]

theorem keepsBefore_classHeading : KeepsBefore '\x7b' classHeading := by decide

/-- The words of a declaration begin with a word character. -/
theorem isWord_of_leads_classHeading {here there : Place Unit} (h : Leads classHeading here there) :
    here.cursor.rest.head?.any Text.isWord := by
  have hclass : ∀ name ∈ ["with", "without", "inherited", "virtual", "abstract", "class"],
      IsLowerName name.toList ∧ name.toList ≠ [] := by
    have hne : ∀ name ∈ ["with", "without", "inherited", "virtual", "abstract", "class"],
      name.toList ≠ [] ∧
        name ∈ ["with", "without", "inherited", "virtual", "abstract", "sharing", "class"] := by
          decide
    exact fun name hname => ⟨isLowerName_classWord name (hne name hname).2, (hne name hname).1⟩
  have hkeyword (names : List String)
    (hnames : names ⊆ ["with", "without", "inherited", "virtual", "abstract", "class"])
      {here there : Place Unit} (h : Leads (keyword names) here there) :
        here.cursor.rest.head?.any Text.isWord :=
    isWord_of_leads_keyword (fun name hname => hclass name (hnames hname)) h
  have hvisibility : ∀ name ∈ visibilityNames, IsLowerName name.toList ∧ name.toList ≠ [] := by
    have hne : ∀ name ∈ visibilityNames, name.toList ≠ [] := by decide
    exact fun name hname => ⟨isLowerName_visibility name hname, hne name hname⟩
  obtain ⟨_, h, -⟩ := leads_append.mp h
  obtain ⟨_, h, -⟩ := leads_append.mp h
  obtain ⟨_, h, -⟩ := leads_append.mp h
  obtain ⟨atClass, hfront, hword⟩ := leads_append.mp h
  obtain ⟨behindVisibility, hfront, hwords⟩ := leads_append.mp hfront
  obtain ⟨behindSharing, hsharing, hkind⟩ := leads_append.mp hwords
  rcases leads_maybe.mp hfront with hfront | rfl
  · obtain ⟨_, hfirst, -⟩ := leads_append.mp hfront
    exact isWord_of_leads_keyword hvisibility hfirst
  rcases leads_maybe.mp hsharing with hsharing | rfl
  · obtain ⟨_, hsharing, -⟩ := leads_append.mp hsharing
    obtain ⟨_, hsharing, -⟩ := leads_append.mp hsharing
    obtain ⟨_, hfirst, -⟩ := leads_append.mp hsharing
    exact hkeyword _ (by decide) hfirst
  rcases leads_maybe.mp hkind with hkind | rfl
  · obtain ⟨_, hfirst, -⟩ := leads_append.mp hkind
    exact hkeyword _ (by decide) hfirst
  · exact hkeyword ["class"] (by decide) hword

/-- The words up to the opening brace are matched alone as they are inside of a text. -/
theorem exists_heading (h : classPattern.matchAt (between before text) = some hit) : ∃ heading,
    text = heading ++ '\x7b' :: hit.stop.rest ∧ ∀ rest, ∃ hit',
      classPattern.matchAt (between none (heading ++ '\x7b' :: rest)) = some hit' ∧ hit'.stop.rest =
      rest ∧
        hit'.group () = hit.group () := by
  rw [matchAt, Option.map_eq_some_iff] at h
  obtain ⟨last, hrun, rfl⟩ := h
  rw [classPattern_run_heading, run_wordEdge] at hrun
  split_ifs at hrun
  obtain ⟨there, hleads, hbrace⟩ := exists_leads hrun
  obtain ⟨hthere, -⟩ : there.cursor.rest = '\x7b' :: last.cursor.rest ∧
    last.groups = there.groups := by
    obtain ⟨last', hlast', heq⟩ := exists_leads hbrace
    exact Option.some.inj heq ▸ hlast'.char_inv
  have hmem : '\x7b' ∈ text := hleads.rest_suffix.subset (hthere ▸ List.mem_cons_self)
  obtain ⟨heading, more, rfl, hheading⟩ := List.eq_append_cons_of_mem hmem
  -- Both runs come to the first brace or to no brace at all.
  have halone (rest : Text) : Option.Rel (fun last last' : Place Unit => last.cursor.rest = more ∧
    last'.cursor.rest = rest ∧
      SameGroups last.groups last'.groups)
      (classHeading.run ⟨between before (heading ++ '\x7b' :: more), []⟩ fun there =>
        (char '\x7b').run there some)
      (classHeading.run ⟨between none (heading ++ '\x7b' :: rest), []⟩ fun there =>
        (char '\x7b').run there some) := by
    refine keepsBefore_classHeading.rel_run ⟨⟨heading, hheading, rfl, rfl⟩, .nil⟩ ?_
    rintro place place' ⟨⟨ahead, hahead, hrest, hrest'⟩, hgroups⟩
    rw [eq_place hrest, eq_place hrest', char]
    cases ahead with
    | nil => exact .some ⟨rfl, rfl, hgroups⟩
    | cons c ahead =>
      have hc : (c == '\x7b') = false := beq_false_of_ne (Ne.symm (List.ne_of_not_mem_cons hahead))
      simp only [List.cons_append, run_one_cons, hc, Bool.false_eq_true, if_false]
      exact .none
  have hmore : last.cursor.rest = more := by
    have hrel := halone []
    rw [hrun] at hrel
    obtain ⟨hnone, -⟩ | ⟨last₁, last₂, hlast, -, hrest, -⟩ := rel_cases hrel
    · cases hnone
    · rw [Option.some.inj hlast]
      exact hrest
  refine ⟨heading, by rw [hmore], fun rest => ?_⟩
  have hrel := halone rest
  rw [hrun] at hrel
  obtain ⟨hnone, -⟩ | ⟨last₁, last', hlast, hrun', -, hrest', hgroups⟩ := rel_cases hrel
  · cases hnone
  · obtain rfl := Option.some.inj hlast
    refine ⟨⟨between none (heading ++ '\x7b' :: rest), last'.cursor, last'.groups⟩, ?_, hrest', ?_⟩
    · have hword : (heading ++ '\x7b' :: rest).head?.any Text.isWord := by
        have hhead := isWord_of_leads_classHeading hleads
        cases heading with
        | nil => exact hhead
        | cons c heading => exact hhead
      rw [matchAt, classPattern_run_heading, run_wordEdge_ahead hword, hrun']
      rfl
    · rw [Hit.group, Hit.group, Hit.group?, Hit.group?, hgroups.lookup]

theorem rest_skip (n : Nat) (here : Cursor) : (skip n here).rest = here.rest.drop n := by
  rw [eq_between here]
  generalize here.before = before
  generalize here.rest = text
  induction n generalizing before text with
  | zero => rfl
  | succ n ih =>
    cases text with
    | nil => rfl
    | cons c text => exact ih (some c) text

/-- The body of a declaration runs up to the closing brace, or else to the end. -/
theorem declarationAt_cases (hit : Hit Unit) :
    (∃ body rest, hit.stop.rest = body ++ '\x7d' :: rest ∧ (declarationAt hit).body = body ∧
      (declarationAt hit).after.rest = rest ∧
      ∀ place more, closingFrom .code 1 place (body ++ '\x7d' :: more) =
        some (place + body.length)) ∨
    ((declarationAt hit).body = hit.stop.rest ∧ (declarationAt hit).after.rest = [] ∧
      ¬ Closes .code 1 hit.stop.rest) := by
  rw [declarationAt]
  cases hfound : closingFrom .code 1 0 hit.stop.rest with
  | some length =>
    obtain ⟨body, rest, hrest, hclosing⟩ := closes_of_closingFrom hfound
    obtain rfl : body.length = length := by
      rw [hrest, hclosing, Nat.zero_add] at hfound
      exact Option.some.inj hfound
    refine .inl ⟨body, rest, hrest, ?_, ?_, hclosing⟩
    · simp only [hrest, List.take_left]
    · simp only [rest_skip, hrest]
      rw [← List.drop_drop, List.drop_left]
      rfl
  | none =>
    refine .inr ⟨rfl, ?_, ?_⟩
    · simp only [rest_skip, hit.stop.left_eq, List.drop_length]
    · rintro ⟨body, rest, hrest, hclosing⟩
      rw [hrest, hclosing] at hfound
      cases hfound

theorem reaches_skip (n : Nat) (here : Cursor) : Reaches here (skip n here) := by
  induction n generalizing here with
  | zero => exact .refl here
  | succ n ih =>
    rw [skip]
    split
    · rename_i hnext
      exact (reaches_of_next? hnext).trans (ih _)
    · exact .refl here

theorem declarationAt_name (hit : Hit Unit) : (declarationAt hit).name = hit.group () := by
  rw [declarationAt]
  split
  · rfl
  · rfl

theorem reaches_declarationAt {here : Cursor} (h : classPattern.matchAt here = some hit) :
    Reaches here (declarationAt hit).after := by
  have hskip : ∃ n, (declarationAt hit).after = skip n hit.stop := by
    rw [declarationAt]
    split
    · exact ⟨_, rfl⟩
    · exact ⟨_, rfl⟩
  obtain ⟨n, hn⟩ := hskip
  rw [hn]
  exact (leads_of_matchAt h).2.reaches.trans (reaches_skip n hit.stop)

structure Found (here : Cursor) (d : Declaration) (hit : Hit Unit) : Prop where
  reaches : Reaches here d.start
  matched : classPattern.matchAt d.start = some hit
  eq : d = declarationAt hit

theorem found_of_searchFrom {here : Cursor} (h : classPattern.searchFrom here = some hit) :
    Found here (declarationAt hit) hit := by
  obtain ⟨hreaches, hmatch⟩ := reaches_of_searchWithin h
  exact ⟨by rwa [declarationAt_start], by rwa [declarationAt_start], rfl⟩

theorem Found.behind {here middle : Cursor} {d : Declaration} (h : Found middle d hit)
    (hreaches : Reaches here middle) :
    Found here d hit := ⟨hreaches.trans h.reaches, h.matched, h.eq⟩

theorem Found.reaches_after {here : Cursor} {d : Declaration} (h : Found here d hit) :
    Reaches here d.after := by
  obtain ⟨hreaches, hmatch, rfl⟩ := h
  exact hreaches.trans (reaches_declarationAt hmatch)

theorem exists_found {n : Nat} {here : Cursor} {d : Declaration} (h : d ∈ declarationsFrom n here) :
    ∃ hit, Found here d hit := by
  induction n generalizing here with
  | zero => cases h
  | succ n ih =>
    rw [declarationsFrom] at h
    split at h
    · rename_i hit hsearch
      have hfirst := found_of_searchFrom hsearch
      rcases List.mem_cons.mp h with rfl | h
      · exact ⟨hit, hfirst⟩
      · obtain ⟨hit', hfound⟩ := ih h
        exact ⟨hit', hfound.behind hfirst.reaches_after⟩
    · cases h

/-- Each declaration begins behind the one before it. -/
theorem pairwise_declarationsFrom (n : Nat) (here : Cursor) :
    (declarationsFrom n here).Pairwise fun first second => second.start.left ≤
      first.after.left := by
  induction n generalizing here with
  | zero => exact .nil
  | succ n ih =>
    rw [declarationsFrom]
    split
    · refine .cons (fun d hd => ?_) (ih _)
      obtain ⟨hit, hfound⟩ := exists_found hd
      exact hfound.reaches.left_le
    · exact .nil

namespace Declaration

def startIn (text : Text) (d : Declaration) : Nat := text.length - d.start.left

/-- Where what follows a declaration begins in a text. -/
def stopIn (text : Text) (d : Declaration) : Nat := text.length - d.after.left

/-- The piece of a text that a declaration takes up. -/
def sourceIn (text : Text) (d : Declaration) : Text :=
  (text.drop (d.startIn text)).take (d.stopIn text - d.startIn text)

end Declaration

def cursorAt (text : Text) (place : Nat) : Cursor := between (behind none (text.take place))
    (text.drop place)

theorem cursorAt_of_reaches {here : Cursor} (h : Reaches (start text) here) :
    cursorAt text (text.length - here.left) = here := by
  obtain ⟨passed, hrest, hbefore⟩ := h
  obtain rfl : text = passed ++ here.rest := hrest
  have hplace : (passed ++ here.rest).length - here.left = passed.length := by
    rw [here.left_eq, List.length_append, Nat.add_sub_cancel]
  rw [cursorAt, hplace, List.take_left, List.drop_left]
  exact (congrArg (between · _) hbefore.symm).trans (eq_between here).symm

theorem reaches_cursorAt (text : Text) (place : Nat) : Reaches (start text) (cursorAt text place) :=
  ⟨text.take place, (List.take_append_drop place text).symm, rfl⟩

theorem cursorAt_of_length_le {place : Nat} (h : text.length ≤ place) :
    cursorAt text place = cursorAt text text.length := by
  rw [cursorAt, cursorAt, List.take_of_length_le h, List.drop_of_length_le h, List.take_length,
    List.drop_length]

/-- The declaration is matched at its place, and it ends behind the brace that closes the last
character of the match, or with the text. -/
def Declaration.IsIn (text : Text) (d : Declaration) : Prop :=
  ∃ hit, classPattern.matchAt (cursorAt text (d.startIn text)) = some hit ∧ d.startIn text <
    d.stopIn text ∧
    d.stopIn text = min (matchingBrace text (text.length - hit.stop.left - 1) + 1) text.length

theorem matchingBrace_opening (front rest : Text) :
    matchingBrace (front ++ '\x7b' :: rest) front.length =
    (closingFrom .code 1 (front.length + 1) rest).getD (front.length + 1 + rest.length) := by
  rw [matchingBrace, List.drop_left, List.length_append, List.length_cons, Nat.add_assoc,
    Nat.add_comm 1]
  rfl

/-- The text in pieces around the braces of a declaration. -/
structure IsSplit (text : Text) (d : Declaration) (hit : Hit Unit) (front heading closing : Text) :
    Prop where
  text_eq : text = front ++ d.start.rest
  start_eq : d.start.rest = heading ++ '\x7b' :: hit.stop.rest
  stop_eq : hit.stop.rest = d.body ++ (closing ++ d.after.rest)
  closing_eq : closing = ['\x7d'] ∧
      (∀ place more, closingFrom .code 1 place (d.body ++ '\x7d' :: more) =
        some (place + d.body.length)) ∨
    closing = [] ∧ d.after.rest = [] ∧ ¬ Closes .code 1 d.body

section Alone
variable {d : Declaration} {front heading closing : Text}

theorem exists_isSplit (h : Found (start text) d hit) : ∃ front heading closing,
    IsSplit text d hit front heading closing ∧ ∀ rest, ∃ hit',
      classPattern.matchAt (between none (heading ++ '\x7b' :: rest)) = some hit' ∧ hit'.stop.rest =
      rest ∧
        hit'.group () = d.name := by
  obtain ⟨⟨front, hfront, -⟩, hmatch, rfl⟩ := h
  rw [eq_between (declarationAt hit).start] at hmatch
  obtain ⟨heading, hheading, halone⟩ := exists_heading hmatch
  rw [declarationAt_name]
  obtain ⟨body, rest, hstop, rfl, rfl, hclosing⟩ | ⟨hbody, hafter, hopen⟩ := declarationAt_cases hit
  · exact ⟨front, heading, ['\x7d'], ⟨hfront, hheading, hstop, .inl ⟨rfl, hclosing⟩⟩, halone⟩
  · refine ⟨front, heading, [], ⟨hfront, hheading, ?_, .inr ⟨rfl, hafter, hbody ▸ hopen⟩⟩, halone⟩
    rw [hbody, hafter, List.append_nil, List.append_nil]

namespace IsSplit
variable (h : IsSplit text d hit front heading closing)
include h

theorem startIn_eq : d.startIn text = front.length := by
  rw [Declaration.startIn, h.text_eq, d.start.left_eq, List.length_append, Nat.add_sub_cancel]

theorem stopIn_eq :
    d.stopIn text = front.length + (heading ++ '\x7b' :: (d.body ++ closing)).length := by
  rw [Declaration.stopIn, h.text_eq, h.start_eq, h.stop_eq, d.after.left_eq]
  simp only [List.length_append, List.length_cons]
  omega

theorem sourceIn_eq : d.sourceIn text = heading ++ '\x7b' :: (d.body ++ closing) := by
  have hrest : d.start.rest = (heading ++ '\x7b' :: (d.body ++ closing)) ++ d.after.rest := by
    rw [h.start_eq, h.stop_eq]
    simp only [List.append_assoc, List.cons_append]
  rw [Declaration.sourceIn, h.stopIn_eq, h.startIn_eq, Nat.add_sub_cancel_left, h.text_eq,
    List.drop_left, hrest, List.take_left]

theorem matchingBrace_body : matchingBrace text (text.length - hit.stop.left - 1) =
    front.length + heading.length + 1 + d.body.length := by
  have hplace : text.length - hit.stop.left - 1 = (front ++ heading).length := by
    rw [h.text_eq, h.start_eq, hit.stop.left_eq]
    simp only [List.length_append, List.length_cons]
    omega
  have htext : text = (front ++ heading) ++ '\x7b' :: hit.stop.rest := by
    rw [h.text_eq, h.start_eq, List.append_assoc]
  have hopening := matchingBrace_opening (front ++ heading) hit.stop.rest
  rw [← htext, h.stop_eq] at hopening
  rw [hplace, hopening, ← List.length_append]
  obtain ⟨rfl, hclosing⟩ | ⟨rfl, hafter, hopen⟩ := h.closing_eq
  · rw [List.singleton_append, hclosing, Option.getD_some]
  · have hnone : closingFrom .code 1 ((front ++ heading).length + 1) d.body = none :=
      Option.eq_none_iff_forall_ne_some.mpr fun found hfound => hopen (closes_of_closingFrom hfound)
    rw [hafter, List.append_nil, List.append_nil, hnone, Option.getD_none]

theorem matchingBrace_eq : min (matchingBrace text (text.length - hit.stop.left - 1) + 1)
    text.length = d.stopIn text := by
  rw [h.matchingBrace_body, h.stopIn_eq, h.text_eq, h.start_eq, h.stop_eq]
  obtain ⟨rfl, -⟩ | ⟨rfl, hafter, -⟩ := h.closing_eq
  · simp only [List.length_append, List.length_cons, List.length_nil]
    omega
  · rw [hafter]
    simp only [List.length_append, List.length_cons, List.length_nil]
    omega

theorem body_alone {hit' : Hit Unit} (hstop : hit'.stop.rest = d.body ++ closing) :
    (declarationAt hit').body = d.body := by
  obtain ⟨rfl, hclosing⟩ | ⟨rfl, -, hopen⟩ := h.closing_eq
  · obtain ⟨body, rest, hrest, rfl, -, hclosing'⟩ | ⟨-, -, hopen⟩ := declarationAt_cases hit'
    · rw [hstop] at hrest
      have hlength := hclosing' 0 rest
      rw [← hrest, hclosing, Option.some.injEq] at hlength
      exact (List.append_inj_left hrest (by omega)).symm
    · exact absurd ⟨d.body, [], hstop, hclosing⟩ hopen
  · rw [List.append_nil] at hstop
    obtain ⟨body, rest, hrest, rfl, -, hclosing'⟩ | ⟨hbody, -, -⟩ := declarationAt_cases hit'
    · exact absurd ⟨_, rest, hstop ▸ hrest, hclosing'⟩ hopen
    · rw [hbody, hstop]

theorem isIn (hfound : Found (start text) d hit) : d.IsIn text := by
  have hcursor : cursorAt text (d.startIn text) = d.start := cursorAt_of_reaches hfound.reaches
  refine ⟨hit, by rw [hcursor, hfound.matched], ?_, h.matchingBrace_eq.symm⟩
  rw [h.startIn_eq, h.stopIn_eq, List.length_append, List.length_cons]
  omega

theorem length_body_lt : d.body.length < text.length := by
  rw [h.text_eq, h.start_eq, h.stop_eq]
  simp only [List.length_append, List.length_cons]
  omega

end IsSplit

/-- The piece that a declaration takes up is read as a source of its own with this body, and any
name is given. -/
theorem read_sourceIn (hfound : Found (start text) d hit) (name : Text) :
    d.body.length < (d.sourceIn text).length ∧
    read (d.sourceIn text) name = readBody ((d.sourceIn text).length + 1) d.name d.body := by
  obtain ⟨front, heading, closing, h, halone⟩ := exists_isSplit hfound
  rw [h.sourceIn_eq]
  constructor
  · simp only [List.length_append, List.length_cons]
    omega
  · obtain ⟨hit', hmatch, hstop, hname⟩ := halone (d.body ++ closing)
    rw [read, search, start_eq, searchFrom_of_matchAt hmatch]
    simp only [h.body_alone hstop, declarationAt_name, hname]

end Alone

/-- The fuel makes no difference when there is more of it than characters. -/
theorem readBody_enough {n m : Nat} {body : Text} (name : Text) (hn : body.length < n)
    (hm : body.length < m) :
    readBody n name body = readBody m name body := by
  induction n generalizing m name body with
  | zero => exact absurd hn (Nat.not_lt_zero _)
  | succ n ih =>
    obtain ⟨m, rfl⟩ : ∃ k, m = k + 1 := ⟨m - 1, by omega⟩
    rw [readBody, readBody]
    have hinner : ∀ d ∈ declarations body, readBody n d.name d.body = readBody m d.name d.body := by
      intro d hd
      obtain ⟨hit, hfound⟩ := exists_found hd
      obtain ⟨front, heading, closing, hsplit, -⟩ := exists_isSplit hfound
      have hlength := hsplit.length_body_lt
      exact ih d.name (by omega) (by omega)
    simp only [List.map_congr_left hinner]

def outerBody (source : Text) : Text :=
  match classPattern.search source with
  | some hit => (declarationAt hit).body
  | none => source

/-- The bodies that are read, at any depth, and the classes they give. -/
inductive Reads (source name : Text) : Text → Class → Prop
  | outer : Reads source name (outerBody source) (read source name)
  | inner {body : Text} {found inner : Class} {d : Declaration} (h : Reads source name body found)
      (hmem : (d, inner) ∈ (declarations body).zip found.inner) : Reads source name d.body inner

theorem inner_readBody (n : Nat) (name body : Text) : (readBody (n + 1) name body).inner =
    (declarations body).map fun d => readBody n d.name d.body := rfl

theorem Reads.exists_readBody {source name body : Text} {found : Class}
    (h : Reads source name body found) :
    ∃ n name', body.length < n ∧ found = readBody n name' body := by
  induction h with
  | outer =>
    cases hsearch : classPattern.search source with
    | some hit =>
      obtain ⟨front, heading, closing, hsplit, -⟩ := exists_isSplit (found_of_searchFrom hsearch)
      have hlength := hsplit.length_body_lt
      simp only [outerBody, read, hsearch]
      exact ⟨source.length + 1, _, by omega, rfl⟩
    | none =>
      simp only [outerBody, read, hsearch]
      exact ⟨source.length + 1, name, Nat.lt_succ_self _, rfl⟩
  | @inner body found inner d _ hmem ih =>
    obtain ⟨n, name', hn, rfl⟩ := ih
    obtain ⟨n, rfl⟩ : ∃ k, n = k + 1 := ⟨n - 1, by omega⟩
    rw [inner_readBody, ← List.map_prod_left_eq_zip] at hmem
    obtain ⟨d', hd, heq⟩ := List.mem_map.mp hmem
    obtain ⟨rfl, rfl⟩ := Prod.mk.inj heq
    obtain ⟨hit, hfound⟩ := exists_found hd
    obtain ⟨front, heading, closing, hsplit, -⟩ := exists_isSplit hfound
    have hlength := hsplit.length_body_lt
    exact ⟨n, d'.name, by omega, rfl⟩

/-- At every depth the inner classes of a body are what its declarations give when each is read as a
source of its own, by whatever name. The declarations stand in the body one behind the other, each
from where it is matched up to the brace that closes the one the match ends with, or to the end of
the body. -/
theorem inner_eq_read {source name body : Text} {found : Class} (h : Reads source name body found)
    (names : Declaration → Text) :
    found.inner = (declarations body).map (fun d => read (d.sourceIn body) (names d)) ∧
      (∀ d ∈ declarations body, d.IsIn body) ∧
      (declarations body).Pairwise fun first second => first.stopIn body ≤ second.startIn body := by
  obtain ⟨n, name', hn, rfl⟩ := h.exists_readBody
  obtain ⟨n, rfl⟩ : ∃ k, n = k + 1 := ⟨n - 1, by omega⟩
  refine ⟨?_, fun d hd => ?_, ?_⟩
  · rw [inner_readBody]
    refine List.map_congr_left fun d hd => ?_
    obtain ⟨hit, hfound⟩ := exists_found hd
    obtain ⟨front, heading, closing, hsplit, -⟩ := exists_isSplit hfound
    have hlength := hsplit.length_body_lt
    obtain ⟨hshorter, hread⟩ := read_sourceIn hfound (names d)
    rw [hread]
    exact readBody_enough d.name (by omega) (by omega)
  · obtain ⟨hit, hfound⟩ := exists_found hd
    obtain ⟨front, heading, closing, hsplit, -⟩ := exists_isSplit hfound
    exact hsplit.isIn hfound
  · refine (pairwise_declarationsFrom body.length (start body)).imp fun hle => ?_
    exact Nat.sub_le_sub_left hle body.length

/-- A class with an inner class in which there is another one, and with one that is not closed. -/
def nestedSource : Text :=
  "public class A \x7b class B \x7b ".toList ++ "virtual class C \x7b \x7d \x7d ".toList ++
  "public class D \x7b ".toList ++ "public void f() \x7b \x7d".toList

theorem inner_eq_read_nested :
    Reads nestedSource [] (outerBody nestedSource) (read nestedSource []) ∧
      (read nestedSource []).inner = (declarations (outerBody nestedSource)).map
        (fun d => read (d.sourceIn (outerBody nestedSource)) d.body) ∧
      (declarations (outerBody nestedSource)).map (·.sourceIn (outerBody nestedSource)) =
        ["class B \x7b virtual class C \x7b \x7d \x7d".toList,
          "public class D \x7b public void f() \x7b \x7d".toList] :=
  ⟨.outer, (inner_eq_read .outer Declaration.body).1, by decide +kernel⟩

end Visualforce.Apex
