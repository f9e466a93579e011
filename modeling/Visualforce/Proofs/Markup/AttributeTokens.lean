import Visualforce.Proofs.Markup.AttributeMap
import Visualforce.Proofs.Markup.LooseTag

/-! # Reading attributes back

Inside a tag there can be attributes with a value in quotes, attributes with a value of word
characters and no quotes, and names alone. Only the first kind is read. A name leads to its value
where an equals sign and a quote come behind it, blanks aside. From no place in an attribute of the
other kinds does one get to a quote that way, so all of them are passed over, and a value between
quotes is taken as a whole whatever it looks like.
-/
namespace Visualforce.Markup
open Pattern Cursor

variable {κ : Type} {groups : List (κ × Span)} {before : Option Char} {name text rest : Text}
variable {goOn : Place κ → Option (Place κ)} {last : Place κ}

def quotes : List Char := ['"', '\'']

theorem run_quotedValue_of_quote (key : κ) {quote : Char} (hquote : quote ∈ quotes) {value : Text}
    (hvalue : quote ∉ value)
    (hgo : goOn ⟨between (some quote) rest,
    (key, (between (some quote) (value ++ quote :: rest)).spanTo
      (between (behind (some quote) value) (quote :: rest))) :: groups⟩ = some last) :
    (quotedValue key).run ⟨between before (quote :: (value ++ quote :: rest)), groups⟩ goOn =
      some last := by
  obtain rfl | rfl : quote = '"' ∨ quote = '\'' := by simpa [quotes] using hquote
  · exact run_quotedValue key hvalue hgo
  · rw [quotedValue, run_alt, Option.or_eq_some_iff]
    refine .inr ⟨rfl, ?_⟩
    simp only [char, run_append, run_group, run_one_cons, beq_self_eq_true, if_true]
    refine run_starOne_of_some (fun c hc => ?_) ?_ ?_
    · have hne : c ≠ '\'' := by
        rintro rfl
        exact hvalue hc
      simp [hne]
    · rintro c ⟨⟩
      decide
    · simpa using hgo

theorem run_quotedValue_of_head? {key : κ} (h : ∀ c ∈ text.head?, c ∉ quotes) :
    (quotedValue key).run ⟨between before text, groups⟩ goOn = none := by
  have hone (quote : Char) (hquote : quote ∈ quotes) (goOn : Place κ → Option (Place κ)) :
      (char quote).run ⟨between before text, groups⟩ goOn = none :=
    run_one_of_head? fun c hc => beq_false_of_ne fun heq => h c hc (heq ▸ hquote)
  rw [quotedValue, run_alt, run_append, run_append, run_append, run_append, hone _ (by decide),
    hone _ (by decide)]
  rfl

theorem not_mem_quotes_of_isBlank {c : Char} (hc : Text.isBlank c) : c ∉ quotes := by
  intro hmem
  have hall : ∀ c ∈ quotes, Text.isBlank c = false := by decide
  rw [hall c hmem] at hc
  cases hc

theorem run_sign_value {key : κ} {left right : Text} (hleft : ∀ c ∈ left, Text.isBlank c)
    (hright : ∀ c ∈ right, Text.isBlank c)
    (hrest : ∀ c ∈ rest.head?, Text.isBlank c = false) :
    (equalsSign ++ quotedValue key).run ⟨between before (left ++ '=' :: (right ++ rest)), groups⟩
      goOn =
      (quotedValue key).run ⟨between (behind (some '=') right) rest, groups⟩ goOn := by
  have hsign : ∀ before c more, Text.isBlank c = true → ∀ goOn : Place κ → Option (Place κ),
      (char '=').run ⟨between before (c :: more), groups⟩ goOn = none := by
    intro before c more hc goOn
    refine run_one_of_head? ?_
    rintro d ⟨⟩
    exact beq_false_of_ne fun heq => absurd (heq ▸ hc) (by decide)
  have hvalue : ∀ before c more, Text.isBlank c = true →
      (quotedValue key).run ⟨between before (c :: more), groups⟩ goOn = none := by
    intro before c more hc
    refine run_quotedValue_of_head? ?_
    rintro d ⟨⟩
    exact not_mem_quotes_of_isBlank hc
  have hstop : ∀ c ∈ ('=' :: (right ++ rest)).head?, Text.isBlank c = false := by
    rintro c ⟨⟩
    decide
  rw [run_append, equalsSign, run_append, run_append, blank,
    run_starOne hleft hstop fun before c more hc => hsign before c more hc _]
  simp only [char, run_one_cons, beq_self_eq_true, if_true]
  exact run_starOne hright hrest hvalue

def behindSign (text : Text) : Text :=
  match (text.dropWhile isTagNameChar).dropWhile Text.isBlank with
  | '=' :: more => more.dropWhile Text.isBlank
  | _ => []

theorem behindSign_name (hname : ∀ c ∈ name, isTagNameChar c) (rest : Text) :
    behindSign (name ++ rest) = behindSign rest := by
  rw [behindSign, List.dropWhile_append_of_pos hname, behindSign]

theorem dropWhile_isBlank {gap : Text} (hgap : ∀ c ∈ gap, Text.isBlank c)
    (hrest : ∀ c ∈ rest.head?, Text.isBlank c = false) :
    (gap ++ rest).dropWhile Text.isBlank = rest := by
  rw [List.dropWhile_append_of_pos hgap]
  exact Text.trimStart_of_head? hrest

theorem behindSign_sign {left right : Text} (hleft : ∀ c ∈ left, Text.isBlank c)
    (hright : ∀ c ∈ right, Text.isBlank c)
    (rest : Text) : behindSign (left ++ '=' :: (right ++ rest)) = rest.dropWhile Text.isBlank := by
  have hname : (left ++ '=' :: (right ++ rest)).dropWhile isTagNameChar = left ++
    '=' :: (right ++ rest) := by
    cases left with
    | nil => exact List.dropWhile_cons_of_neg (by decide)
    | cons c left =>
      exact List.dropWhile_cons_of_neg
        (by simp [LooseTag.isTagNameChar_of_isBlank (hleft c List.mem_cons_self)])
  have hsign : ∀ c ∈ ('=' :: (right ++ rest)).head?, Text.isBlank c = false := by
    rintro c ⟨⟩
    decide
  rw [behindSign, hname, dropWhile_isBlank hleft hsign]
  exact List.dropWhile_append_of_pos hright

/-- An attribute is matched only where its name leads to a quote. -/
theorem matchAt_attributePair_none (h : ∀ c ∈ (behindSign text).head?, c ∉ quotes) :
    attributePair.matchAt (between before text) = none := by
  rw [matchAt, Option.map_eq_none_iff, attributePair, run_append, run_append, run_group]
  refine run_plusOne_none text fun passed rest htext hpassed => ?_
  rw [htext, behindSign_name hpassed] at h
  obtain ⟨left, solid, rfl, hleft, hsolid⟩ := Text.exists_leading_blanks rest
  by_cases hsign : solid.head? = some '='
  · obtain ⟨more, rfl⟩ := List.head?_eq_some_iff.mp hsign
    obtain ⟨right, value, rfl, hright, hvalue⟩ := Text.exists_leading_blanks more
    have hdrop : ([] ++ value).dropWhile Text.isBlank = value :=
      dropWhile_isBlank (List.forall_mem_nil _) hvalue
    rw [List.nil_append] at hdrop
    rw [behindSign_sign hleft hright, hdrop] at h
    exact (run_sign_value hleft hright hvalue).trans (run_quotedValue_of_head? h)
  · refine run_equalsSign_of_ne ?_
    rwa [dropWhile_isBlank hleft hsolid]

/-- The end of a text, or blanks with neither an equals sign nor a quote behind them. -/
structure IsBetween (rest : Text) : Prop where
  head : ∀ c ∈ rest.head?, Text.isBlank c
  behind : ∀ c ∈ (rest.dropWhile Text.isBlank).head?, c ∉ '=' :: quotes

theorem isBetween_of_blanks {gap : Text} (h : ∀ c ∈ gap, Text.isBlank c) : IsBetween gap := by
  refine ⟨fun c hc => h c (List.mem_of_head? hc), ?_⟩
  rw [List.dropWhile_eq_nil_iff.mpr h]
  exact nofun

namespace IsBetween
variable (h : IsBetween rest)
include h

theorem behindSign_eq : behindSign rest = [] := by
  have hname : rest.dropWhile isTagNameChar = rest := by
    cases rest with
    | nil => rfl
    | cons c rest =>
      exact List.dropWhile_cons_of_neg
        (by simp [LooseTag.isTagNameChar_of_isBlank (h.head c rfl)])
  rw [behindSign, hname]
  split
  · rename_i hsign
    exact absurd List.mem_cons_self (h.behind '=' (by rw [hsign]; rfl))
  · rfl

theorem quiet_name (hname : ∀ c ∈ name, isTagNameChar c) (before : Option Char) :
    Quiet attributePair before name rest := by
  refine quiet_of_forall fun front c more hsplit => matchAt_attributePair_none ?_
  have hmore : ∀ d ∈ c :: more, isTagNameChar d :=
    fun d hd => hname d (hsplit ▸ List.mem_append_right front hd)
  rw [← List.cons_append, behindSign_name hmore, h.behindSign_eq]
  exact nofun

end IsBetween

namespace LooseAttribute

def pair? (attr : LooseAttribute) : Option (Text × Text) :=
  attr.assigned.bind fun assigned => assigned.quote.map fun _ => (attr.name, assigned.value)

/-- What can be told apart inside a tag: without quotes there are only word characters in a
value. -/
structure IsToken (attr : LooseAttribute) : Prop where
  gap : ∀ c ∈ attr.gap, Text.isBlank c
  nonempty : attr.name ≠ []
  name : ∀ c ∈ attr.name, isTagNameChar c
  left : ∀ assigned ∈ attr.assigned, ∀ c ∈ assigned.left, Text.isBlank c
  right : ∀ assigned ∈ attr.assigned, ∀ c ∈ assigned.right, Text.isBlank c
  quoted : ∀ assigned ∈ attr.assigned, ∀ quote ∈ assigned.quote, quote ∈ quotes ∧
    quote ∉ assigned.value
  unquoted : ∀ assigned ∈ attr.assigned, assigned.quote = none → ∀ c ∈ assigned.value, Text.isWord c

end LooseAttribute

/-- What a match of an attribute shows. -/
def pairOf (hit : Hit AttributePart) : Text × Text := (hit.group .name, hit.group .value)

variable {left right value : Text}

theorem matchAt_quoted (hne : name ≠ []) (hname : ∀ c ∈ name, isTagNameChar c)
    (hleft : ∀ c ∈ left, Text.isBlank c)
    (hright : ∀ c ∈ right, Text.isBlank c) {quote : Char} (hquote : quote ∈ quotes)
    (hvalue : quote ∉ value)
    (before : Option Char) (rest : Text) : ∃ hit,
      attributePair.matchAt
      (between before (name ++ (left ++ '=' :: (right ++ quote :: (value ++ quote :: rest))))) =
      some hit ∧
        hit.stop = between (some quote) rest ∧ pairOf hit = (name, value) := by
  let behindName := left ++ '=' :: (right ++ quote :: (value ++ quote :: rest))
  have hhead : ∀ c ∈ behindName.head?, isTagNameChar c = false := by
    cases left with
    | nil =>
      rintro c ⟨⟩
      decide
    | cons d left =>
      rintro c ⟨⟩
      exact LooseTag.isTagNameChar_of_isBlank (hleft d List.mem_cons_self)
  have hstop : ∀ c ∈ (quote :: (value ++ quote :: rest)).head?, Text.isBlank c = false := by
    rintro c ⟨⟩
    exact (by decide : ∀ c ∈ quotes, Text.isBlank c = false) quote hquote
  have hrun : attributePair.run ⟨between before (name ++ behindName), []⟩ some =
      some ⟨between (some quote) rest,
        [(.value, (between (some quote) (value ++ quote :: rest)).spanTo
          (between (behind (some quote) value) (quote :: rest))),
        (.name, (between before (name ++ behindName)).spanTo
        (between (behind before name) behindName))]⟩ := by
    rw [attributePair, run_append, run_append, run_group]
    refine run_plusOne_of_some hne hname hhead ?_
    exact (run_sign_value hleft hright hstop).trans (run_quotedValue_of_quote _ hquote hvalue rfl)
  refine ⟨_, by rw [matchAt, hrun]; rfl, rfl, Prod.ext ?_ ?_⟩
  · exact spanTo_text _ _ name _
  · exact spanTo_text _ _ value _

/-- An attribute without quotes leads nowhere. -/
theorem quiet_unquoted (hname : ∀ c ∈ name, isTagNameChar c) (hleft : ∀ c ∈ left, Text.isBlank c)
    (hright : ∀ c ∈ right, Text.isBlank c) (hvalue : ∀ c ∈ value, Text.isWord c)
    (hrest : IsBetween rest)
    (before : Option Char) : Quiet attributePair before (name ++ (left ++ '=' :: (right ++ value)))
    rest := by
  have hnone {gap : Text} (hgap : ∀ c ∈ gap, Text.isBlank c) (before : Option Char) (rest : Text) :
      Quiet attributePair before gap rest :=
    begins_attributePair.quiet (fun c hc => LooseTag.isTagNameChar_of_isBlank (hgap c hc))
      before rest
  have hword : ∀ c ∈ value, isTagNameChar c := fun c hc => by simp [isTagNameChar, hvalue c hc]
  have hsign (before : Option Char) (rest : Text) : Quiet attributePair before ['='] rest :=
    begins_attributePair.quiet (by decide) before rest
  -- From every place in the name one gets to the front of the value.
  have hfront (before : Option Char) : Quiet attributePair before name
    (left ++ '=' :: (right ++ value) ++ rest) := by
    refine quiet_of_forall fun front c more hsplit => matchAt_attributePair_none ?_
    have hmore : ∀ d ∈ c :: more, isTagNameChar d :=
      fun d hd => hname d (hsplit ▸ List.mem_append_right front hd)
    have hassoc : left ++ '=' :: (right ++ value) ++ rest = left ++
      '=' :: (right ++ (value ++ rest)) := by simp
    rw [← List.cons_append, behindSign_name hmore, hassoc, behindSign_sign hleft hright]
    cases value with
    | nil => exact fun d hd hquote => hrest.behind d hd (List.mem_cons_of_mem _ hquote)
    | cons d value =>
      have hd := hword d List.mem_cons_self
      rw [List.cons_append, List.dropWhile_cons_of_neg (by simp [isBlank_of_isTagNameChar hd])]
      rintro _ ⟨⟩ hquote
      rw [(by decide : ∀ d ∈ quotes, isTagNameChar d = false) d hquote] at hd
      cases hd
  exact (hfront before).append ((hnone hleft _ _).append
    ((hsign _ _).append ((hnone hright _ _).append (hrest.quiet_name hword _))))

namespace LooseAttribute
variable {attr : LooseAttribute} (h : attr.IsToken)
include h

theorem IsToken.isBetween (hgap : attr.gap ≠ []) (rest : Text) :
    IsBetween (attr.source ++ rest) := by
  obtain ⟨c, more, hcons⟩ := List.exists_cons_of_ne_nil hgap
  obtain ⟨d, others, hname⟩ := List.exists_cons_of_ne_nil h.nonempty
  have hd : isTagNameChar d := h.name d (hname ▸ List.mem_cons_self)
  refine ⟨?_, ?_⟩
  · rw [source, hcons]
    rintro _ ⟨⟩
    exact h.gap c (hcons ▸ List.mem_cons_self)
  · rw [source, List.append_assoc, List.dropWhile_append_of_pos h.gap, body, hname,
      List.cons_append, List.cons_append, List.dropWhile_cons_of_neg
      (by simp [isBlank_of_isTagNameChar hd])]
    rintro _ ⟨⟩ hmark
    rw [(by decide : ∀ d ∈ '=' :: quotes, isTagNameChar d = false) d hmark] at hd
    cases hd

/-- A scan of an attribute shows its name and its value, or nothing at all. -/
theorem IsToken.scans_body (hrest : IsBetween rest) (before : Option Char) : ∃ after,
    Scans attributePair (seen pairOf) (between before (attr.body ++ rest)) attr.pair?.toList
    (between after rest) := by
  cases hassigned : attr.assigned with
  | none =>
    have hbody : attr.body = attr.name := by simp [body, hassigned]
    have hpair : attr.pair? = none := by rw [pair?, hassigned, Option.bind_none]
    rw [hbody, hpair]
    exact ⟨_, (hrest.quiet_name h.name before).scans_seen pairOf⟩
  | some assigned =>
    have hleft := h.left assigned hassigned
    have hright := h.right assigned hassigned
    cases hquote : assigned.quote with
    | none =>
      have hbody : attr.body = attr.name ++
        (assigned.left ++ '=' :: (assigned.right ++ assigned.value)) := by
        simp [body, hassigned, Assigned.source, Assigned.raw, hquote]
      have hpair : attr.pair? = none := by
        rw [pair?, hassigned, Option.bind_some, hquote, Option.map_none]
      rw [hbody, hpair]
      have hvalue := h.unquoted assigned hassigned hquote
      exact ⟨_, (quiet_unquoted h.name hleft hright hvalue hrest before).scans_seen pairOf⟩
    | some quote =>
      have hsource : attr.body ++ rest = attr.name ++
          (assigned.left ++
            '=' :: (assigned.right ++ quote :: (assigned.value ++ quote :: rest))) := by
        simp [body, hassigned, Assigned.source, Assigned.raw, hquote]
      have hpair : attr.pair? = some (attr.name, assigned.value) := by
        rw [pair?, hassigned, Option.bind_some, hquote, Option.map_some]
      obtain ⟨hkind, hvalue⟩ := h.quoted assigned hassigned quote hquote
      obtain ⟨hit, hmatch, hstop, hshown⟩ :=
        matchAt_quoted h.nonempty h.name hleft hright hkind hvalue before rest
      rw [hsource, hpair]
      have hlt : hit.stop.left < (between before (attr.name ++
          (assigned.left ++
            '=' :: (assigned.right ++ quote :: (assigned.value ++ quote :: rest))))).left := by
        simp only [hstop, between_left, List.length_append, List.length_cons]
        omega
      have hscan := Scans.single pairOf hmatch hlt
      rw [hstop, hshown] at hscan
      exact ⟨_, hscan⟩

theorem IsToken.scans_source (hrest : IsBetween rest) (before : Option Char) : ∃ after,
    Scans attributePair (seen pairOf) (between before (attr.source ++ rest)) attr.pair?.toList
    (between after rest) := by
  have hgap : Quiet attributePair before attr.gap (attr.body ++ rest) :=
    begins_attributePair.quiet (fun c hc => LooseTag.isTagNameChar_of_isBlank (h.gap c hc)) before _
  obtain ⟨after, hscan⟩ := h.scans_body hrest (behind before attr.gap)
  refine ⟨after, ?_⟩
  rw [source, List.append_assoc]
  exact (hgap.scans_seen pairOf).append hscan

end LooseAttribute

/-- The inside of a tag: attributes with blanks between them, and blanks at its end. -/
structure IsInside (attributes : List LooseAttribute) (back : Text) : Prop where
  tokens : ∀ attr ∈ attributes, attr.IsToken
  separated : ∀ attr ∈ attributes.tail, attr.gap ≠ []
  back : ∀ c ∈ back, Text.isBlank c

def quotedPairs (attributes : List LooseAttribute) : List (Text × Text) :=
  attributes.filterMap LooseAttribute.pair?

variable {attributes : List LooseAttribute} {back : Text}

theorem scans_attributesSource (h : IsInside attributes back) (before : Option Char) : ∃ after,
    Scans attributePair (seen pairOf) (between before (attributesSource attributes ++ back))
    (quotedPairs attributes)
      (between after []) := by
  induction attributes generalizing before with
  | nil =>
    have hquiet : Quiet attributePair before back [] :=
      begins_attributePair.quiet (fun c hc => LooseTag.isTagNameChar_of_isBlank (h.back c hc))
        before []
    have hscan := hquiet.scans_seen pairOf
    rw [List.append_nil] at hscan
    exact ⟨_, hscan⟩
  | cons attr attributes ih =>
    obtain ⟨htoken, htokens⟩ := List.forall_mem_cons.mp h.tokens
    have hseparated : ∀ other ∈ attributes, other.gap ≠ [] := h.separated
    have hrest : IsBetween (attributesSource attributes ++ back) := by
      cases attributes with
      | nil => exact isBetween_of_blanks h.back
      | cons other others =>
        rw [attributesSource, List.flatMap_cons, List.append_assoc]
        exact (htokens other List.mem_cons_self).isBetween (hseparated other List.mem_cons_self) _
    obtain ⟨middle, hscan⟩ := htoken.scans_source hrest before
    obtain ⟨after, hscans⟩ :=
      ih ⟨htokens, fun other hother => hseparated other (List.mem_of_mem_tail hother), h.back⟩
      middle
    refine ⟨after, ?_⟩
    have hpairs : quotedPairs (attr :: attributes) = attr.pair?.toList ++
      quotedPairs attributes := by
      rw [quotedPairs, List.filterMap_cons]
      cases attr.pair? <;> rfl
    rw [hpairs, attributesSource, List.flatMap_cons, List.append_assoc]
    exact hscan.append hscans

/-- Of the attributes inside a tag exactly those with a value in quotes are read. Their names stand
in the order in which they come first, and each name has the value that is given to it last. -/
theorem attributesIn_attributesSource (h : IsInside attributes back) :
    (attributesIn (attributesSource attributes ++ back)).map (·.1) =
      dedupe ((quotedPairs attributes).map (·.1)) ∧
      ∀ name, (attributesIn (attributesSource attributes ++ back)).get? name =
        (quotedPairs attributes).reverse.lookup name := by
  obtain ⟨after, hscan⟩ := scans_attributesSource h none
  have hpairs : attributesIn (attributesSource attributes ++ back) =
    .ofPairs (quotedPairs attributes) :=
    congrArg AttributeMap.ofPairs hscan.hits
  rw [hpairs]
  exact ⟨AttributeMap.map_fst_ofPairs _, AttributeMap.get?_ofPairs _⟩

/-- Values that look like attributes, a name alone, a value without quotes and a name that is
repeated. -/
def mixedAttributes : List LooseAttribute :=
  [⟨[], "id".toList, some ⟨[], [], some '\'', "x=\"1\" y".toList⟩⟩,
    ⟨[' '], "hidden".toList, none⟩,
    ⟨['\n'], "data-x".toList, some ⟨[' '], [' '], some '"', "id='z'".toList⟩⟩,
    ⟨[' '], "count".toList, some ⟨[], [], none, "3".toList⟩⟩,
    ⟨[' ', ' '], "id".toList, some ⟨[' '], [], some '"', "it's".toList⟩⟩]

theorem attributesIn_mixedAttributes :
    IsInside mixedAttributes [' '] ∧
      attributesSource mixedAttributes ++ [' '] =
        "id='x=\"1\" y' hidden\n".toList ++ "data-x = \"id='z'\" ".toList ++
          "count=3  id =\"it's\" ".toList ∧
      (attributesIn (attributesSource mixedAttributes ++ [' '])).map (·.1) =
        ["id".toList, "data-x".toList] ∧
      (attributesIn (attributesSource mixedAttributes ++ [' '])).get? "id".toList =
        some "it's".toList := by
  have hinside : IsInside mixedAttributes [' '] := by
    refine ⟨fun attr hattr => ?_, by decide, by decide⟩
    simp only [mixedAttributes, List.mem_cons, List.not_mem_nil, or_false] at hattr
    -- The quote is taken by its cases, since to decide over what is optional may go through all
    -- characters.
    rcases hattr with rfl | rfl | rfl | rfl | rfl <;>
      refine ⟨by decide, by decide, by decide, by decide, by decide, ?_, by decide⟩ <;>
        rintro _ ⟨⟩ quote ⟨⟩ <;> decide
  obtain ⟨hnames, hvalues⟩ := attributesIn_attributesSource hinside
  exact ⟨hinside, by
    decide +kernel, hnames.trans (by decide +kernel), (hvalues _).trans (by decide +kernel)⟩

end Visualforce.Markup
