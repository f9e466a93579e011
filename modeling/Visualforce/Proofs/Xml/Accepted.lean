import Visualforce.Proofs.Markup.Source

/-! # Tags that are accepted

A start tag that is read without a fault is a start tag of the text: it was written with the names
that are read, and every attribute with a value between quotes.
-/
namespace Visualforce.Xml
open Markup (LooseTag LooseAttribute Assigned attributesSource tagEnd isLooseNameChar)

variable {opening text rest : Text} {fuel : Nat}

@[simp] theorem fail_ne_ok {α : Type} (reason : Reason) (rest : Text) (a : α) :
    fail reason rest ≠ .ok a := nofun

@[simp] theorem refuse_ne_ok {α : Type} (opening rest : Text) (a : α) :
    refuse opening rest ≠ .ok a := by
  rw [refuse]
  split_ifs <;> exact fail_ne_ok _ _ _

/-- A name without a colon. -/
def isNameRun (name : Text) : Bool := name.head?.any isNameStart && name.all isNameChar

theorem isNameChar_of_isNameStart {c : Char} (h : isNameStart c) : isNameChar c = true := by
  rw [isNameStart] at h
  rw [isNameChar]
  split_ifs at h ⊢ with hascii
  · rw [Bool.or_eq_true] at h
    rcases h with h | h <;> simp [Char.isAlphanum, h]
  · rw [h, Bool.true_or]

theorem exists_cons_of_isNameRun {name : Text} (h : isNameRun name) :
    ∃ c more, name = c :: more ∧ isNameStart c ∧ ∀ d ∈ name, isNameChar d := by
  cases name with
  | nil => cases h
  | cons c more =>
    rw [isNameRun, Bool.and_eq_true, List.all_eq_true] at h
    exact ⟨c, more, rfl, h⟩

/-- What no name of a document holds. -/
theorem not_mem_of_isNameRun {name : Text} (h : isNameRun name) {mark : Char}
    (hmark : isNameChar mark = false) :
    mark ∉ name := by
  obtain ⟨-, -, -, -, hchars⟩ := exists_cons_of_isNameRun h
  intro hmem
  rw [hchars mark hmem] at hmark
  cases hmark

theorem simpleName_eq_ok {name : Text} (h : simpleName opening text = .ok (name, rest)) :
    text = name ++ rest ∧ isNameRun name ∧ ∀ c ∈ rest.head?, isNameChar c = false := by
  cases text with
  | nil => cases h
  | cons c text =>
    rw [simpleName] at h
    split_ifs at h with hc
    · cases h
      refine ⟨by rw [List.cons_append,
        List.takeWhile_append_dropWhile], ?_, fun d => Text.not_of_mem_head?_dropWhile⟩
      rw [isNameRun, List.head?_cons, Option.any_some, hc, Bool.true_and, List.all_eq_true]
      exact List.forall_mem_cons.mpr ⟨isNameChar_of_isNameStart hc, fun d hd =>
        List.mem_takeWhile_imp hd⟩
    · exact absurd h (fail_ne_ok _ _ _)

/-- A name whose parts are names without a colon. -/
structure WrittenName.IsRead (name : WrittenName) : Prop where
  qualifier : ∀ qualifier ∈ name.qualifier, isNameRun qualifier
  base : isNameRun name.base

theorem WrittenName.IsRead.exists_cons {name : WrittenName} (h : name.IsRead) :
    ∃ c more, name.text = c :: more ∧ isNameStart c ∧ ∀ d ∈ name.text, isNameChar d ∨ d = ':' := by
  obtain ⟨qualifier, base⟩ := name
  obtain ⟨c, more, hbase, hc, hchars⟩ := exists_cons_of_isNameRun h.base
  cases qualifier with
  | none => exact ⟨c, more, hbase, hc, fun d hd => .inl (hchars d hd)⟩
  | some qualifier =>
    obtain ⟨c, more, rfl, hc, hchars'⟩ := exists_cons_of_isNameRun (h.qualifier qualifier rfl)
    exact ⟨c, more ++ ':' :: base, rfl, hc,
      List.forall_mem_append.mpr ⟨fun d hd => .inl (hchars' d hd),
      List.forall_mem_cons.mpr ⟨.inr rfl, fun d hd => .inl (hchars d hd)⟩⟩⟩

theorem writtenName_eq_ok {name : WrittenName} (h : writtenName opening text = .ok (name, rest)) :
    text = name.text ++ rest ∧ name.IsRead ∧ ∀ c ∈ rest.head?, isNameChar c = false := by
  rw [writtenName, bind_eq_ok] at h
  obtain ⟨⟨first, left⟩, hfirst, h⟩ := h
  obtain ⟨rfl, hname, hstop⟩ := simpleName_eq_ok hfirst
  dsimp only at h
  split at h
  · rw [bind_eq_ok] at h
    obtain ⟨⟨base, left⟩, hbase, h⟩ := h
    cases h
    obtain ⟨rfl, hrun, hend⟩ := simpleName_eq_ok hbase
    refine ⟨by simp [WrittenName.text], ⟨?_, hrun⟩, hend⟩
    rintro _ ⟨⟩
    exact hname
  · cases h
    exact ⟨rfl, ⟨by rintro _ ⟨⟩, hname⟩, hstop⟩

theorem isNameChar_of_isHexDigit {c : Char} (h : isHexDigit c) : isNameChar c := by
  have hbound : ∀ last : Char, last.toNat < 128 → c ≤ last → c.toNat < 128 :=
    fun last hlast hle => Nat.lt_of_le_of_lt (UInt32.le_iff_toNat_le.mp hle) hlast
  have hlt : c.toNat < 128 := by
    simp only [isHexDigit, Bool.or_eq_true, Bool.and_eq_true, decide_eq_true_eq] at h
    rcases h with (hdigit | ⟨-, hhigh⟩) | ⟨-, hhigh⟩
    · exact Text.toNat_lt_of_isAlphanum (by simp [Char.isAlphanum, hdigit])
    · exact hbound 'f' (by decide) hhigh
    · exact hbound 'F' (by decide) hhigh
  exact Text.forall_ascii (fun c => isHexDigit c → isNameChar c) (by decide +kernel) hlt h

/-- A reference has no characters but those of names, of numbers and its end. -/
theorem reference_eq_ok {ref : Reference} (h : reference opening text = .ok (ref, rest)) :
    ∃ passed, text = passed ++ rest ∧ ∀ c ∈ passed, isNameChar c ∨ c ∈ ['#', ';'] := by
  have hnumbered : ∀ {base : Nat} {isDigit : Char → Bool} {text : Text},
    (∀ c, isDigit c → isNameChar c) →
      reference.numbered opening base isDigit text = .ok (ref, rest) →
        ∃ passed, text = passed ++ rest ∧ ∀ c ∈ passed, isNameChar c ∨ c ∈ ['#', ';'] := by
    intro base isDigit text hdigit h
    rw [reference.numbered] at h
    split at h
    · exact absurd h (refuse_ne_ok _ _ _)
    · rename_i hdrop _
      cases h
      refine ⟨text.takeWhile isDigit ++ [';'], ?_, ?_⟩
      · rw [List.append_assoc, List.singleton_append, ← hdrop, List.takeWhile_append_dropWhile]
      · exact List.forall_mem_append.mpr
          ⟨fun c hc => .inl (hdigit c (List.mem_takeWhile_imp hc)), by simp⟩
    · exact absurd h (refuse_ne_ok _ _ _)
  rw [reference.eq_def] at h
  split at h
  · obtain ⟨passed, rfl, hpassed⟩ := hnumbered (fun c => isNameChar_of_isHexDigit) h
    exact ⟨'#' :: 'x' :: passed, rfl,
      List.forall_mem_cons.mpr ⟨by simp, List.forall_mem_cons.mpr ⟨.inl (by decide), hpassed⟩⟩⟩
  · obtain ⟨passed, rfl, hpassed⟩ :=
      hnumbered (fun c hc => isNameChar_of_isHexDigit (by simp [isHexDigit, hc])) h
    exact ⟨'#' :: passed, rfl, List.forall_mem_cons.mpr ⟨by simp, hpassed⟩⟩
  · rw [bind_eq_ok] at h
    obtain ⟨⟨name, left⟩, hname, h⟩ := h
    obtain ⟨rfl, hrun, -⟩ := simpleName_eq_ok hname
    obtain ⟨-, -, -, -, hchars⟩ := exists_cons_of_isNameRun hrun
    dsimp only at h
    split at h
    · cases h
      exact ⟨name ++ [';'], by simp, List.forall_mem_append.mpr ⟨fun c hc => .inl (hchars c hc), by
        simp⟩⟩
    · exact absurd h (refuse_ne_ok _ _ _)

/-- A value that is read as it is written. -/
def IsLiteral (value : Text) : Prop := ∀ c ∈ value, c ∉ ['&', '\t', '\n', '\r']

/-- A value ends at the first quote of its kind. -/
theorem attributeValue_eq_ok {quote : Char} {parts value : List ValuePart}
    (hquote : quote ∈ ['"', '\''])
    (h : attributeValue opening quote fuel parts text = .ok (value, rest)) :
    ∃ raw, text = raw ++ quote :: rest ∧ quote ∉ raw ∧ '<' ∉ raw ∧
      (IsLiteral raw → value = parts.reverse ++ raw.map .char) := by
  induction fuel generalizing parts text with
  | zero => exact absurd h (refuse_ne_ok _ _ _)
  | succ fuel ih =>
    have hstep : ∀ (passed : Text) {left : Text} {part : ValuePart}, quote ∉ passed → '<' ∉ passed →
        (IsLiteral passed → passed.map .char = [part]) →
          attributeValue opening quote fuel (part :: parts) left = .ok (value, rest) →
            ∃ raw, passed ++ left = raw ++ quote :: rest ∧ quote ∉ raw ∧ '<' ∉ raw ∧
              (IsLiteral raw → value = parts.reverse ++ raw.map .char) := by
      intro passed left part hpassed hopen hpart h
      obtain ⟨raw, rfl, hraw, hopens, hvalue⟩ := ih h
      refine ⟨passed ++ raw, by rw [List.append_assoc], by simp [hpassed, hraw], by
        simp [hopen, hopens], fun hliteral => ?_⟩
      obtain ⟨hfront, hback⟩ := List.forall_mem_append.mp hliteral
      rw [hvalue hback, List.map_append, hpart hfront]
      simp
    cases text with
    | nil => exact absurd h (fail_ne_ok _ _ _)
    | cons c text =>
      rw [attributeValue.eq_def] at h
      dsimp only at h
      split at h
      · rename_i hend
        cases h
        exact ⟨[], by rw [beq_iff_eq.mp hend]; rfl, by simp, by simp, by simp⟩
      · rename_i hend
        have hne : quote ∉ [c] := by
          rw [List.mem_singleton]
          exact fun heq => hend (beq_iff_eq.mpr heq.symm)
        split at h
        · exact absurd h (fail_ne_ok _ _ _)
        · rename_i hbad
          have hopen : '<' ∉ [c] := by
            rw [List.mem_singleton]
            rintro rfl
            exact hbad rfl
          split at h
          · rename_i hreference
            obtain rfl := beq_iff_eq.mp hreference
            rw [bind_eq_ok] at h
            obtain ⟨⟨ref, left⟩, href, h⟩ := h
            obtain ⟨passed, rfl, hpassed⟩ := reference_eq_ok href
            have hnot : ∀ mark, isNameChar mark = false → mark ∉ ['#', ';'] → mark ∉ passed := by
              intro mark hmark hnone hmem
              rcases hpassed mark hmem with hname | hother
              · rw [hname] at hmark
                cases hmark
              · exact hnone hother
            have hquotes :=
              (by decide : ∀ quote ∈ ['"', '\''], isNameChar quote = false ∧ quote ∉ ['#', ';'])
              quote hquote
            refine hstep ('&' :: passed) ?_ ?_ (fun hliteral => absurd (hliteral '&' (by simp))
              (by decide)) h
            · rw [List.mem_cons, not_or]
              exact ⟨fun heq => hne (by simp [heq]), hnot quote hquotes.1 hquotes.2⟩
            · rw [List.mem_cons, not_or]
              exact ⟨by decide, hnot '<' (by decide) (by decide)⟩
          · split at h
            · rename_i hreturn
              obtain rfl := beq_iff_eq.mp hreturn
              have hno : ∀ {passed : Text}, '\r' ∈ passed → ¬ IsLiteral passed :=
                fun hmem h => absurd (h '\r' hmem) (by decide)
              split at h
              · rename_i after
                refine hstep ['\r', '\n'] ?_ (by decide)
                  (fun hliteral => absurd hliteral (hno (by simp))) h
                exact (by decide : ∀ quote ∈ ['"', '\''], quote ∉ ['\r', '\n']) quote hquote
              · exact hstep ['\r'] hne hopen (fun hliteral => absurd hliteral (hno (by simp))) h
            · refine hstep [c] hne hopen (fun hliteral => ?_) h
              have hspace : isSpace c = true → c = ' ' := by
                intro hspace
                have hc := hliteral c (by simp)
                simp only [isSpace, Bool.or_eq_true, beq_iff_eq] at hspace
                simp only [List.mem_cons, List.not_mem_nil, or_false, not_or] at hc
                tauto
              split_ifs with hc
              · rw [hspace hc]
                rfl
              · rfl

theorem exists_spaces (text : Text) :
    ∃ spaces, text = spaces ++ skipSpace text ∧ (∀ c ∈ spaces, Text.isBlank c) ∧ '<' ∉ spaces := by
  have hspace : ∀ {c}, c ∈ text.takeWhile isSpace → c ∈ [' ', '\t', '\n', '\r'] := by
    intro c hc
    have hspace := List.mem_takeWhile_imp hc
    simp only [isSpace, Bool.or_eq_true, beq_iff_eq] at hspace
    simp only [List.mem_cons, List.not_mem_nil, or_false]
    tauto
  refine ⟨text.takeWhile isSpace, (List.takeWhile_append_dropWhile).symm, fun c hc => ?_,
    fun hmem => ?_⟩
  · exact (by decide : ∀ c ∈ [' ', '\t', '\n', '\r'], Text.isBlank c) c (hspace hc)
  · exact absurd (hspace hmem) (by decide)

structure IsReadAs (attr : LooseAttribute) (written : WrittenAttribute) : Prop where
  loose : attr.IsLoose
  bracket : '<' ∉ attr.source
  name : attr.name = written.name.text
  isRead : written.name.IsRead
  value : ∃ assigned, attr.assigned = some assigned ∧ assigned.quote ≠ none ∧
    (IsLiteral assigned.value → written.value = assigned.value.map .char)

theorem isNameChar_of_isBlank {c : Char} (h : Text.isBlank c) : isNameChar c = false := by
  have hlow : ∀ n ∈ Text.blankCodes, n < 0x1680 → isNameChar (Char.ofNat n) = false := by
    decide +kernel
  rcases Nat.lt_or_ge c.toNat 0x1680 with hlt | hge
  · have hname := hlow c.toNat (Text.mem_blankCodes h) hlt
    rwa [Char.ofNat_toNat] at hname
  · have hascii : ¬ c.toNat < 0x80 := by omega
    rw [isNameChar, if_neg hascii, Text.inRanges_of_isBlank h hge (by decide +kernel),
      Text.inRanges_of_isBlank h hge (by decide +kernel), Bool.or_false]

theorem isLooseNameChar_of_isNameChar {c : Char} (h : isNameChar c ∨ c = ':') :
    isLooseNameChar c = true := by
  have hmarks : ∀ mark ∈ "=/>\"'".toList, isNameChar mark = false ∧ mark ≠ ':' := by decide
  have hapart : ¬ (isNameChar c = false ∧ c ≠ ':') := by
    rintro ⟨hname, hcolon⟩
    rcases h with h | h
    · rw [hname] at h
      cases h
    · exact hcolon h
  have hblank : Text.isBlank c = false := by
    rw [← Bool.not_eq_true]
    intro hblank
    refine hapart ⟨isNameChar_of_isBlank hblank, ?_⟩
    rintro rfl
    cases hblank
  rw [isLooseNameChar, hblank, Bool.not_false, Bool.true_and, Bool.not_eq_true', ← Bool.not_eq_true,
    List.contains_iff_mem]
  exact fun hmem => hapart (hmarks c hmem)

theorem writtenAttribute_eq_ok {written : WrittenAttribute} {gap : Text} (hne : gap ≠ [])
    (hgap : ∀ c ∈ gap, Text.isBlank c) (hbracket : '<' ∉ gap)
    (h : writtenAttribute opening text = .ok (written, rest)) :
    ∃ attr, gap ++ text = LooseAttribute.source attr ++ rest ∧ IsReadAs attr written := by
  rw [writtenAttribute, bind_eq_ok] at h
  obtain ⟨⟨name, left⟩, hname, h⟩ := h
  obtain ⟨rfl, hread, -⟩ := writtenName_eq_ok hname
  obtain ⟨before, hbefore, hblank, hnone⟩ := exists_spaces left
  dsimp only at h
  split at h
  · rename_i more hsign
    obtain ⟨behind, hbehind, hblank', hnone'⟩ := exists_spaces more
    split at h
    · rename_i quote after hquote
      split_ifs at h with hkind
      · rw [bind_eq_ok] at h
        obtain ⟨⟨value, ending⟩, hvalue, h⟩ := h
        cases h
        have hquotes : quote ∈ ['"', '\''] := by simpa using hkind
        obtain ⟨raw, rfl, hraw, hopen, hliteral⟩ := attributeValue_eq_ok hquotes hvalue
        obtain ⟨c, _, hcons, -, hchars⟩ := hread.exists_cons
        have hnot : '<' ∉ name.text := fun hmem => absurd (hchars '<' hmem) (by decide)
        refine ⟨⟨gap, name.text, some ⟨before, behind, some quote, raw⟩⟩, ?_, ?_⟩
        · rw [hbefore, hsign, hbehind, hquote]
          simp [LooseAttribute.source, LooseAttribute.body, Assigned.source, Assigned.raw]
        · refine ⟨⟨⟨hne, hgap⟩,
            ⟨by simp [hcons], fun c hc => isLooseNameChar_of_isNameChar (hchars c hc)⟩, ?_⟩, ?_,
            rfl, hread, _, rfl, by simp, fun h => by simpa using hliteral h⟩
          · rintro _ ⟨⟩
            refine ⟨hblank, hblank', ?_, by rintro ⟨⟩⟩
            rintro _ ⟨⟩
            exact ⟨hquotes, hraw⟩
          · have hmark : '<' ≠ quote := by
              rintro rfl
              exact absurd hquotes (by decide)
            simp [LooseAttribute.source, LooseAttribute.body, Assigned.source, Assigned.raw,
              hbracket, hnot, hnone, hnone', hopen, hmark]
      · exact absurd h (refuse_ne_ok _ _ _)
    · exact absurd h (refuse_ne_ok _ _ _)
  · exact absurd h (refuse_ne_ok _ _ _)

theorem tagRest_eq_ok {name : WrittenName} {attributes : List WrittenAttribute} {tag : StartTag}
    (h : tagRest opening name fuel attributes text = .ok (tag, rest)) :
    ∃ loose gap read, text = attributesSource loose ++ (gap ++ (tagEnd tag.closed ++ rest)) ∧
      (∀ c ∈ gap, Text.isBlank c) ∧ '<' ∉ gap ∧ List.Forall₂ IsReadAs loose read ∧
        tag.name = name ∧ tag.attributes = attributes.reverse ++ read := by
  induction fuel generalizing attributes text with
  | zero => exact absurd h (refuse_ne_ok _ _ _)
  | succ fuel ih =>
    obtain ⟨gap, hgap, hblank, hbracket⟩ := exists_spaces text
    rw [tagRest] at h
    split at h
    · exact absurd h (fail_ne_ok _ _ _)
    · rename_i hend
      cases h
      exact ⟨[], gap, [], by rw [hgap, hend]; rfl, hblank, hbracket, .nil, rfl, by simp⟩
    · rename_i hend
      cases h
      exact ⟨[], gap, [], by rw [hgap, hend]; rfl, hblank, hbracket, .nil, rfl, by simp⟩
    · exact absurd h (refuse_ne_ok _ _ _)
    · rename_i c more _ _ _ hcons
      split_ifs at h with hc
      · rw [bind_eq_ok] at h
        obtain ⟨⟨written, left⟩, hwritten, h⟩ := h
        have hne : gap ≠ [] := by
          rintro rfl
          rw [hgap, List.nil_append, hcons, List.head?_cons, Option.any_some, Bool.and_eq_true]
            at hc
          have hstop : isSpace c = false :=
            Text.not_of_mem_head?_dropWhile (congrArg List.head? hcons)
          rw [hstop] at hc
          cases hc.2
        obtain ⟨attr, hattr, hread⟩ := writtenAttribute_eq_ok hne hblank hbracket hwritten
        obtain ⟨loose, ending, read, rfl, hending, hnone, hloose, hname, hattributes⟩ := ih h
        refine ⟨attr :: loose, ending, written :: read, ?_, hending, hnone, .cons hread hloose,
          hname, ?_⟩
        · rw [hgap, hcons, hattr]
          simp [attributesSource]
        · rw [hattributes]
          simp
      · exact absurd h (fail_ne_ok _ _ _)

theorem exists_of_forall₂ {α β : Type} {related : α → β → Prop} {first : List α} {second : List β}
    (h : List.Forall₂ related first second) {a : α} (ha : a ∈ first) :
    ∃ b ∈ second, related a b := by
  induction h with
  | nil => cases ha
  | cons hab _ ih =>
    rcases List.mem_cons.mp ha with rfl | ha
    · exact ⟨_, List.mem_cons_self, hab⟩
    · obtain ⟨b, hb, hrelated⟩ := ih ha
      exact ⟨b, List.mem_cons_of_mem _ hb, hrelated⟩

structure IsTagReadAs (tag : LooseTag) (read : StartTag) : Prop where
  written : tag.IsWritten
  bracket : '<' ∉ tag.source.tail
  name : tag.name = read.name.text
  isRead : read.name.IsRead
  attributes : List.Forall₂ IsReadAs tag.attributes read.attributes

theorem startTag_eq_ok {read : StartTag} (h : startTag opening text = .ok (read, rest)) :
    ∃ tag, '<' :: text = LooseTag.source tag ++ rest ∧ IsTagReadAs tag read := by
  rw [startTag, bind_eq_ok] at h
  obtain ⟨⟨name, left⟩, hname, h⟩ := h
  obtain ⟨rfl, hread, -⟩ := writtenName_eq_ok hname
  obtain ⟨loose, gap, attributes, rfl, hblank, hbracket, hloose, rfl, hattributes⟩ :=
    tagRest_eq_ok h
  obtain ⟨c, more, hcons, hc, hchars⟩ := hread.exists_cons
  have hall : ∀ attr ∈ loose, ∃ written, IsReadAs attr written := fun attr hattr => by
    obtain ⟨written, -, hwritten⟩ := exists_of_forall₂ hloose hattr
    exact ⟨written, hwritten⟩
  have hnot : '<' ∉ read.name.text := fun hmem => absurd (hchars '<' hmem) (by decide)
  refine ⟨⟨read.name.text, loose, gap, read.closed⟩, by
    simp [LooseTag.source], ⟨?_, ?_, ?_, hblank, ?_⟩, ?_, rfl, hread, ?_⟩
  · rw [hcons]
    exact hc
  · refine fun d hd => ⟨isLooseNameChar_of_isNameChar (hchars d hd), ?_⟩
    rintro rfl
    exact hnot hd
  · exact fun attr hattr => (hall attr hattr).choose_spec.loose
  · intro _ _ attr hattr assigned hassigned
    obtain ⟨another, hanother, hquote, -⟩ :=
      (hall attr (List.mem_of_getLast? hattr)).choose_spec.value
    rw [hanother] at hassigned
    exact Option.some.inj hassigned ▸ hquote
  · have hend : '<' ∉ tagEnd read.closed := by cases read.closed <;> decide
    have hattrs : '<' ∉ attributesSource loose := by
      rw [attributesSource, List.mem_flatMap]
      rintro ⟨attr, hattr, hmem⟩
      exact (hall attr hattr).choose_spec.bracket hmem
    rw [LooseTag.source, List.tail_cons]
    simp [hnot, hattrs, hbracket, hend]
  · rwa [hattributes]

end Visualforce.Xml
