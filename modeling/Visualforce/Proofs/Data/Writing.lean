import Mathlib.Data.Nat.Init
import Mathlib.Data.List.Basic
import Mathlib.Tactic.SplitIfs
import Visualforce.Data.Writing
import Visualforce.Proofs.Data.Value

/-! # Written values

The compact writing of a value tells it apart from every other one, with whatever follows it. Only
an integer has to be told from more digits; all else shows its own end.
-/
namespace Visualforce

/-- Written one after the other with anything behind them, no two of the things are the same. -/
def IsPrefixFree {α : Type} (write : α → Text) : Prop :=
  ∀ {a b : α} {rest more : Text}, write a ++ rest = write b ++ more → a = b ∧ rest = more

theorem hexDigit_injective {m n : Nat} (hm : m < 16) (hn : n < 16) (h : hexDigit m = hexDigit n) :
    m = n := by
  have hall : ∀ m < 16, ∀ n < 16, hexDigit m = hexDigit n → m = n := by decide
  exact hall m hm n hn h

theorem escapeUnit_append {m n : Nat} {rest more : Text} (hm : m < 0x10000) (hn : n < 0x10000)
    (h : escapeUnit m ++ rest = escapeUnit n ++ more) : m = n ∧ rest = more := by
  simp only [escapeUnit, List.cons_append, List.nil_append, List.cons.injEq, true_and] at h
  obtain ⟨h1, h2, h3, h4, hrest⟩ := h
  have h1 := hexDigit_injective (by omega) (by omega) h1
  have h2 := hexDigit_injective (by omega) (by omega) h2
  have h3 := hexDigit_injective (by omega) (by omega) h3
  have h4 := hexDigit_injective (by omega) (by omega) h4
  exact ⟨by omega, hrest⟩

theorem toNat_bounds (c : Char) : c.toNat < 0xD800 ∨ 0xDFFF < c.toNat ∧ c.toNat < 0x110000 :=
  c.valid

/-- No character is one of the two units of another. -/
theorem escapeCode_append {c d : Char} {rest more : Text}
    (h : escapeCode c.toNat ++ rest = escapeCode d.toNat ++ more) : c = d ∧ rest = more := by
  have hc := toNat_bounds c
  have hd := toNat_bounds d
  rw [escapeCode, escapeCode] at h
  split_ifs at h with hsmall hsmall' hsmall'
  · obtain ⟨heq, hrest⟩ := escapeUnit_append hsmall hsmall' h
    exact ⟨Char.toNat_inj.mp heq, hrest⟩
  · rw [List.append_assoc] at h
    obtain ⟨heq, -⟩ := escapeUnit_append hsmall (by omega) h
    omega
  · rw [List.append_assoc] at h
    obtain ⟨heq, -⟩ := escapeUnit_append (by omega) hsmall' h
    omega
  · rw [List.append_assoc, List.append_assoc] at h
    obtain ⟨hhigh, hlow⟩ := escapeUnit_append (by omega) (by omega) h
    obtain ⟨hlow, hrest⟩ := escapeUnit_append (by omega) (by omega) hlow
    exact ⟨Char.toNat_inj.mp (by omega), hrest⟩

theorem exists_escapeCode (n : Nat) : ∃ more, escapeCode n = '\\' :: 'u' :: more := by
  rw [escapeCode]
  split_ifs
  · exact ⟨_, rfl⟩
  · exact ⟨_, rfl⟩

/-- The characters that are escaped by a letter. -/
def shortEscapes : List (Char × Char) :=
  [('"', '"'), ('\\', '\\'), ('\n', 'n'), ('\r', 'r'), ('\t', 't'), (Char.ofNat 0x08, 'b'),
    (Char.ofNat 0x0C, 'f')]

theorem mem_shortEscapes {c letter : Char} (h : shortEscape? c = some letter) :
    (c, letter) ∈ shortEscapes := by
  have hcode : ∀ n : Nat, c.toNat = n → c = Char.ofNat n :=
    fun n hn => by rw [← hn, Char.ofNat_toNat]
  simp only [shortEscape?, beq_iff_eq] at h
  split_ifs at h with hc hc hc hc hc hc hc <;> obtain rfl := Option.some.inj h
  · subst hc
    decide
  · subst hc
    decide
  · subst hc
    decide
  · subst hc
    decide
  · subst hc
    decide
  · rw [hcode _ hc]
    decide
  · rw [hcode _ hc]
    decide

theorem eq_of_mem_shortEscapes : ∀ entry ∈ shortEscapes, ∀ other ∈ shortEscapes, entry.2 = other.2 →
    entry = other := by
  decide

/-- A short escape is not the beginning of a numbered one. -/
theorem ne_of_mem_shortEscapes : ∀ entry ∈ shortEscapes, entry.2 ≠ 'u' := by decide

theorem escapeUnless_cases (isPlain : Nat → Bool) (c : Char) :
    (∃ letter, (c, letter) ∈ shortEscapes ∧ escapeUnless isPlain c = ['\\', letter]) ∨
    (c ≠ '\\' ∧ c ≠ '"' ∧ escapeUnless isPlain c = [c]) ∨ escapeUnless isPlain c =
      escapeCode c.toNat := by
  rw [escapeUnless]
  cases hshort : shortEscape? c with
  | some letter => exact .inl ⟨letter, mem_shortEscapes hshort, rfl⟩
  | none =>
    simp only
    split_ifs
    · refine .inr (.inl ⟨?_, ?_, rfl⟩)
      · rintro rfl
        cases hshort
      · rintro rfl
        cases hshort
    · exact .inr (.inr rfl)

theorem isPrefixFree_escapeUnless (isPlain : Nat → Bool) : IsPrefixFree (escapeUnless isPlain) := by
  intro c d rest more h
  obtain ⟨digits, hdigits⟩ := exists_escapeCode c.toNat
  obtain ⟨digits', hdigits'⟩ := exists_escapeCode d.toNat
  rcases escapeUnless_cases isPlain c with ⟨letter, hmem, hc⟩ | ⟨hslash, -, hc⟩ | hc <;>
    rcases escapeUnless_cases isPlain d with ⟨letter', hmem', hd⟩ | ⟨hslash', -, hd⟩ | hd <;>
    rw [hc, hd] at h
  · obtain ⟨rfl, rfl⟩ : letter = letter' ∧ rest = more := by simpa using h
    exact ⟨congrArg Prod.fst (eq_of_mem_shortEscapes _ hmem _ hmem' rfl), rfl⟩
  · exact absurd (List.cons.inj h).1.symm hslash'
  · rw [hdigits'] at h
    exact absurd (List.cons.inj (List.cons.inj h).2).1 (ne_of_mem_shortEscapes _ hmem)
  · exact absurd (List.cons.inj h).1 hslash
  · obtain ⟨rfl, rfl⟩ := List.cons.inj h
    exact ⟨rfl, rfl⟩
  · rw [hdigits'] at h
    exact absurd (List.cons.inj h).1 hslash
  · rw [hdigits] at h
    exact absurd (List.cons.inj (List.cons.inj h).2).1.symm (ne_of_mem_shortEscapes _ hmem')
  · rw [hdigits] at h
    exact absurd (List.cons.inj h).1.symm hslash'
  · exact escapeCode_append h

namespace WritingStyle

theorem isPrefixFree_escape : IsPrefixFree compact.escape :=
  isPrefixFree_escapeUnless fun n => 0x20 ≤ n && n < 0x7F

/-- No escaped character begins with the mark that ends a text. -/
theorem exists_escape (c : Char) : ∃ d more, compact.escape c = d :: more ∧ d ≠ '"' := by
  obtain ⟨digits, hdigits⟩ := exists_escapeCode c.toNat
  rcases escapeUnless_cases (fun n => 0x20 ≤ n && n < 0x7F) c with ⟨letter, -, hc⟩ | ⟨-, hquote, hc⟩
    | hc
  · exact ⟨_, _, hc, by decide⟩
  · exact ⟨_, _, hc, hquote⟩
  · exact ⟨_, _, hc.trans hdigits, by decide⟩

end WritingStyle

namespace Value

theorem isPrefixFree_quote : IsPrefixFree (quote .compact) := by
  intro a b rest more h
  simp only [quote, List.cons_append, List.append_assoc, List.nil_append] at h
  replace h := (List.cons.inj h).2
  induction a generalizing b with
  | nil =>
    cases b with
    | nil => exact ⟨rfl, (List.cons.inj h).2⟩
    | cons d b =>
      obtain ⟨e, after, he, hne⟩ := WritingStyle.exists_escape d
      rw [List.flatMap_cons, he] at h
      exact absurd (List.cons.inj h).1.symm hne
  | cons c a ih =>
    cases b with
    | nil =>
      obtain ⟨e, after, he, hne⟩ := WritingStyle.exists_escape c
      rw [List.flatMap_cons, he] at h
      exact absurd (List.cons.inj h).1 hne
    | cons d b =>
      rw [List.flatMap_cons, List.flatMap_cons, List.append_assoc, List.append_assoc] at h
      obtain ⟨rfl, hbehind⟩ := WritingStyle.isPrefixFree_escape h
      obtain ⟨rfl, rfl⟩ := ih hbehind
      exact ⟨rfl, rfl⟩

/-- What can follow an integer. -/
def EndsNumber (rest : Text) : Prop := ∀ c ∈ rest.head?, c.isDigit = false

theorem isDigit_of_mem_repr {n : Nat} {c : Char} (h : c ∈ n.repr.toList) : c.isDigit :=
  Nat.isDigit_of_mem_toDigits (by decide) (by decide) (Nat.toList_repr ▸ h)

theorem exists_repr (n : Nat) : ∃ c more, n.repr.toList = c :: more ∧ c.isDigit := by
  cases h : n.repr.toList with
  | nil =>
    rw [Nat.toList_repr] at h
    exact absurd h Nat.toDigits_ne_nil
  | cons c more => exact ⟨c, more, rfl, isDigit_of_mem_repr (h ▸ List.mem_cons_self)⟩

theorem repr_append {m n : Nat} {rest more : Text} (hrest : EndsNumber rest)
    (hmore : EndsNumber more)
    (h : m.repr.toList ++ rest = n.repr.toList ++ more) : m = n ∧ rest = more := by
  have hfront : ∀ {n : Nat} {rest : Text}, EndsNumber rest →
      (n.repr.toList ++ rest).takeWhile Char.isDigit = n.repr.toList := by
    intro n rest hrest
    rw [List.takeWhile_append_of_pos fun c => isDigit_of_mem_repr]
    cases rest with
    | nil => simp
    | cons c rest => simp [hrest c rfl]
  have hsame : m.repr.toList = n.repr.toList := by rw [← hfront hrest, h, hfront hmore]
  rw [hsame] at h
  refine ⟨?_, List.append_cancel_left h⟩
  rw [Nat.toList_repr, Nat.toList_repr] at hsame
  rw [← Nat.ofDigitChars_ten_toDigits (n := m), hsame, Nat.ofDigitChars_ten_toDigits]

theorem intText_ofNat (n : Nat) : intText (Int.ofNat n) = n.repr.toList := rfl

theorem intText_negSucc (n : Nat) : intText (Int.negSucc n) = '-' :: (n + 1).repr.toList := by
  change ("-" ++ (n + 1).repr).toList = _
  rw [String.toList_append]
  rfl

theorem intText_append {m n : Int} {rest more : Text} (hrest : EndsNumber rest)
    (hmore : EndsNumber more)
    (h : intText m ++ rest = intText n ++ more) : m = n ∧ rest = more := by
  cases m with
  | ofNat m =>
    cases n with
    | ofNat n =>
      obtain ⟨rfl, rfl⟩ := repr_append hrest hmore h
      exact ⟨rfl, rfl⟩
    | negSucc n =>
      obtain ⟨c, digits, hm, hc⟩ := exists_repr m
      rw [intText_ofNat, intText_negSucc, hm] at h
      obtain rfl := (List.cons.inj h).1
      exact absurd hc (by decide)
  | negSucc m =>
    cases n with
    | ofNat n =>
      obtain ⟨c, digits, hn, hc⟩ := exists_repr n
      rw [intText_ofNat, intText_negSucc, hn] at h
      obtain rfl := (List.cons.inj h).1
      exact absurd hc (by decide)
    | negSucc n =>
      rw [intText_negSucc, intText_negSucc] at h
      obtain ⟨heq, rfl⟩ := repr_append hrest hmore (List.cons.inj h).2
      exact ⟨by omega, rfl⟩

section Joined
variable {α : Type} {write : α → Text} {close : Char} {items others : List α} {rest more : Text}

/-- Items with a comma between them and a closing mark behind them. -/
def joined (write : α → Text) (close : Char) (items : List α) (rest : Text) : Text :=
  Text.joinWith [','] (items.map write) ++ close :: rest

/-- What follows the first item. -/
def afterItem (write : α → Text) (close : Char) : List α → Text → Text
  | [], rest => close :: rest
  | item :: items, rest => ',' :: joined write close (item :: items) rest

theorem joined_cons (item : α) (items : List α) (rest : Text) :
    joined write close (item :: items) rest = write item ++ afterItem write close items rest := by
  cases items with
  | nil => simp [joined, afterItem, Text.joinWith]
  | cons next items => simp [joined, afterItem, Text.joinWith]

theorem head?_afterItem (items : List α) (rest : Text) :
    ∀ c ∈ (afterItem write close items rest).head?, c = close ∨ c = ',' := by
  cases items with
  | nil =>
    rintro c ⟨⟩
    exact .inl rfl
  | cons item items =>
    rintro c ⟨⟩
    exact .inr rfl

/-- Items that can be told apart before a comma and before the closing mark can be told apart in a
list. -/
theorem joined_injective (hclose : close ≠ ',')
    (hfirst : ∀ item, (write item).head?.any (· != close))
    (hitems : ∀ item ∈ items, ∀ other {after further : Text},
    (∀ c ∈ after.head?, c = close ∨ c = ',') →
      (∀ c ∈ further.head?, c = close ∨ c = ',') → write item ++ after = write other ++ further →
      item = other ∧ after = further)
    (h : joined write close items rest = joined write close others more) :
    items = others ∧ rest = more := by
  have hopen : ∀ item (items : List α) (rest more : Text),
      joined write close (item :: items) rest ≠ joined write close [] more := by
    intro item items rest more h
    rw [joined_cons] at h
    have hitem := hfirst item
    cases hwrite : write item with
    | nil => simp [hwrite] at hitem
    | cons c text =>
      rw [hwrite] at h hitem
      exact bne_iff_ne.mp hitem (List.cons.inj h).1
  induction items generalizing others with
  | nil =>
    cases others with
    | nil => exact ⟨rfl, (List.cons.inj h).2⟩
    | cons other others => exact absurd h.symm (hopen other others more rest)
  | cons item items ih =>
    cases others with
    | nil => exact absurd h (hopen item items rest more)
    | cons other others =>
      rw [joined_cons, joined_cons] at h
      obtain ⟨hitem, hitems⟩ := List.forall_mem_cons.mp hitems
      obtain ⟨rfl, hafter⟩ := hitem other (head?_afterItem items rest) (head?_afterItem others more)
        h
      cases items with
      | nil =>
        cases others with
        | nil => exact ⟨rfl, (List.cons.inj hafter).2⟩
        | cons => exact absurd (List.cons.inj hafter).1 hclose
      | cons =>
        cases others with
        | nil => exact absurd (List.cons.inj hafter).1.symm hclose
        | cons =>
          obtain ⟨heq, rfl⟩ := ih hitems (List.cons.inj hafter).2
          exact ⟨congrArg (item :: ·) heq, rfl⟩

end Joined

theorem writeItems_eq (style : WritingStyle) (items : List Value) :
    writeItems style items = items.map (write style) := by
  induction items with
  | nil => rfl
  | cons item items ih => rw [writeItems, ih, List.map_cons]

/-- A field as it is written. -/
def writeField (style : WritingStyle) (field : Text × Value) : Text :=
  quote style field.1 ++ style.colon ++ write style field.2

theorem writeFields_eq (style : WritingStyle) (fields : List (Text × Value)) :
    writeFields style fields = fields.map (writeField style) := by
  induction fields with
  | nil => rfl
  | cons field fields ih => rw [writeFields, ih, List.map_cons, writeField]

theorem write_list (items : List Value) (rest : Text) :
    write .compact (list items) ++ rest = '[' :: joined (write .compact) ']' items rest := by
  simp [write, writeItems_eq, joined, WritingStyle.compact]

theorem write_object (fields : List (Text × Value)) (rest : Text) :
    write .compact (object fields) ++ rest = '\x7b' :: joined (writeField .compact) '\x7d' fields
      rest := by
  simp [write, writeFields_eq, joined, WritingStyle.compact]

theorem writeField_append (field : Text × Value) (rest : Text) :
    writeField .compact field ++ rest = quote .compact field.1 ++
      ':' :: (write .compact field.2 ++ rest) := by
  simp [writeField, WritingStyle.compact]

/-- The kind of a value is told by the first character of its writing. -/
def opening : Value → Char
  | null => 'n'
  | bool _ => 't'
  | int _ => '0'
  | text _ => '"'
  | list _ => '['
  | object _ => '\x7b'

/-- All digits and the sign tell an integer. -/
def openingOf (c : Char) : Char := if c.isDigit || c == '-' then '0' else if c == 'f' then 't'
    else c

theorem exists_write (value : Value) :
    ∃ c more, write .compact value = c :: more ∧ openingOf c = value.opening := by
  cases value with
  | null => exact ⟨_, _, rfl, by decide⟩
  | bool b =>
    cases b with
    | true => exact ⟨_, _, rfl, by decide⟩
    | false => exact ⟨_, _, rfl, by decide⟩
  | int n =>
    cases n with
    | ofNat n =>
      obtain ⟨c, more, hn, hc⟩ := exists_repr n
      exact ⟨c, more, hn, by simp [openingOf, opening, hc]⟩
    | negSucc n => exact ⟨'-', _, intText_negSucc n, by simp [openingOf, opening]⟩
  | text content => exact ⟨_, _, rfl, rfl⟩
  | list items => exact ⟨_, _, rfl, rfl⟩
  | object fields => exact ⟨_, _, rfl, rfl⟩

theorem opening_eq {a b : Value} {rest more : Text}
    (h : write .compact a ++ rest = write .compact b ++ more) :
    a.opening = b.opening := by
  obtain ⟨c, after, ha, hc⟩ := exists_write a
  obtain ⟨d, further, hb, hd⟩ := exists_write b
  rw [ha, hb] at h
  rw [← hc, ← hd, (List.cons.inj h).1]

/-- What follows an item does not go on a number. -/
theorem endsNumber_of_closes {close : Char} {rest : Text} (hclose : close.isDigit = false)
    (h : ∀ c ∈ rest.head?, c = close ∨ c = ',') : EndsNumber rest := by
  intro c hc
  rcases h c hc with rfl | rfl
  · exact hclose
  · rfl

theorem head?_write (value : Value) : (write .compact value).head?.any (· != ']') := by
  obtain ⟨c, more, hwrite, hc⟩ := exists_write value
  rw [hwrite]
  refine bne_iff_ne.mpr ?_
  rintro rfl
  cases value <;> simp [openingOf, opening] at hc

/-- Values are told apart before anything that does not go on an integer. -/
theorem write_append (a : Value) : ∀ (b : Value) {rest more : Text}, EndsNumber rest →
    EndsNumber more →
    write .compact a ++ rest = write .compact b ++ more → a = b ∧ rest = more := by
  induction a using Value.induct with
  | null =>
    intro b rest more _ _ h
    have hopening := opening_eq h
    cases b with
    | null => exact ⟨rfl, List.append_cancel_left h⟩
    | _ => simp [opening] at hopening
  | bool a =>
    intro b rest more _ _ h
    have hopening := opening_eq h
    cases b with
    | bool b =>
      obtain rfl : a = b := by
        cases a <;> cases b
        · rfl
        · exact absurd (List.cons.inj h).1 (by decide)
        · exact absurd (List.cons.inj h).1 (by decide)
        · rfl
      exact ⟨rfl, List.append_cancel_left h⟩
    | _ => simp [opening] at hopening
  | int m =>
    intro b rest more hrest hmore h
    have hopening := opening_eq h
    cases b with
    | int n =>
      rw [write, write] at h
      obtain ⟨rfl, rfl⟩ := intText_append hrest hmore h
      exact ⟨rfl, rfl⟩
    | _ => simp [opening] at hopening
  | text content =>
    intro b rest more _ _ h
    have hopening := opening_eq h
    cases b with
    | text other =>
      rw [write, write] at h
      obtain ⟨rfl, rfl⟩ := isPrefixFree_quote h
      exact ⟨rfl, rfl⟩
    | _ => simp [opening] at hopening
  | list items ih =>
    intro b rest more _ _ h
    have hopening := opening_eq h
    cases b with
    | list others =>
      rw [write_list, write_list] at h
      obtain ⟨rfl, rfl⟩ := joined_injective (by decide) head?_write
        (fun item hitem other after further hafter hfurther => ih item hitem other
          (endsNumber_of_closes (by decide) hafter) (endsNumber_of_closes (by decide) hfurther))
        (List.cons.inj h).2
      exact ⟨rfl, rfl⟩
    | _ => simp [opening] at hopening
  | object fields ih =>
    intro b rest more _ _ h
    have hopening := opening_eq h
    cases b with
    | object others =>
      rw [write_object, write_object] at h
      refine (joined_injective (by decide) (fun _ => rfl) ?_ (List.cons.inj h).2).imp_left
        (congrArg object)
      intro field hfield other after further hafter hfurther heq
      rw [writeField_append, writeField_append] at heq
      obtain ⟨hname, hbehind⟩ := isPrefixFree_quote heq
      obtain ⟨hvalue, hafter⟩ := ih field hfield other.2 (endsNumber_of_closes (by decide) hafter)
        (endsNumber_of_closes (by decide) hfurther) (List.cons.inj hbehind).2
      exact ⟨Prod.ext hname hvalue, hafter⟩
    | _ => simp [opening] at hopening

theorem write_compact_inj {a b : Value} : write .compact a = write .compact b ↔ a = b := by
  refine ⟨fun h => ?_, congrArg _⟩
  have hend : EndsNumber [] := nofun
  exact (write_append a b hend hend (congrArg (· ++ []) h)).1

end Value
end Visualforce
