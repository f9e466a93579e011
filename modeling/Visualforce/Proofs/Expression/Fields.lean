import Visualforce.Expression.Collection
import Visualforce.Proofs.Expression.Find

/-! # All expressions of a text

Whatever a text holds besides, its expressions are found one by one: each stands in a span of its
own between its delimiters, the spans do not overlap, and the contents come in the order of the
spans. So a collection grows by one item for every span.
-/
namespace Visualforce

namespace Expression
open Pattern Cursor

/-- An expression as it stands in a text, with the blanks between it and its delimiters. -/
structure Field where
  first : Text
  content : Text
  last : Text
  first_blank : ∀ c ∈ first, Text.isBlank c
  last_blank : ∀ c ∈ last, Text.isBlank c
  content_ne : content ≠ []
  trimmed : Text.IsTrimmed content
  braceless : '}' ∉ content

def opening : Text := ['{', '!']

def Field.source (field : Field) : Text :=
  opening ++ (field.first ++ (field.content ++ (field.last ++ ['}'])))

/-- A text in which the given fields stand in this order, with gaps before, between and after
them. -/
inductive Carries (IsGap : Text → Prop) : List Field → Text → Prop where
  | gap {gap : Text} (hgap : IsGap gap) : Carries IsGap [] gap
  | field {gap rest : Text} {field : Field} {fields : List Field} (hgap : IsGap gap)
      (hrest : Carries IsGap fields rest) :
      Carries IsGap (field :: fields) (gap ++ (field.source ++ rest))

def OpensNone (gap : Text) : Prop := ¬ opening <:+: gap

theorem Carries.prepend {fields : List Field} {text : Text}
    (h : Carries (fun _ => True) fields text)
    (more : Text) : Carries (fun _ => True) fields (more ++ text) := by
  cases h with
  | gap _ => exact .gap trivial
  | field _ hrest =>
    rw [← List.append_assoc]
    exact .field trivial hrest

variable {groups : List (Unit × Span)} {before : Option Char} {text rest : Text}

theorem mergeField_eq : mergeField = exactly opening ++ star blank ++
    group () (plusLazy (one (· != '}'))) ++ star blank ++ char '}' := rfl

theorem matchAt_mergeField_of_not_isPrefix (h : ¬ opening <+: text) :
    mergeField.matchAt (between before text) = none := by
  simp only [matchAt, mergeField_eq, run_append]
  rw [run_exactly_of_not_isPrefix h]
  rfl

/-- An opening after which no brace closes is not matched. -/
theorem matchAt_mergeField_of_not_mem (h : '}' ∉ text) :
    mergeField.matchAt (between before text) = none := by
  by_cases hfront : opening <+: text
  · obtain ⟨left, rfl⟩ := hfront
    have hclosing : ∀ (before : Option Char) (left : Text) (groups : List (Unit × Span)),
      '}' ∉ left →
        (star blank ++ char '}').run ⟨between before left, groups⟩ some = none := by
      intro before left groups hleft
      refine run_starOne_none left fun passed rest heq _ => run_one_of_head? fun c hc => ?_
      refine beq_false_of_ne fun hbrace => hleft ?_
      rw [heq, ← hbrace]
      exact List.mem_append_right _ (List.mem_of_head? hc)
    simp only [matchAt, mergeField_eq, run_append]
    rw [run_exactly_append, blank, run_starOne_none]
    · rfl
    · rintro passed left' heq -
      rw [run_group, plusLazy, run_append]
      cases left' with
      | nil => rfl
      | cons c left' =>
        rw [run_one_cons]
        split_ifs
        · refine run_starLazyOne_none left' fun passed' rest heq' _ => hclosing _ rest _ ?_
          intro hmem
          rw [heq, heq'] at h
          simp [hmem] at h
        · rfl
  · exact matchAt_mergeField_of_not_isPrefix hfront

theorem matchAt_mergeField_empty :
    mergeField.matchAt (between before (opening ++ '}' :: rest)) = none := by
  simp only [matchAt, mergeField_eq, run_append]
  rw [run_exactly_append, blank, run_star_stop]
  · rfl
  · exact run_one_of_head? (by rintro c ⟨⟩; decide)

theorem run_blanks (before : Option Char) (rest : Text) (groups : List (Unit × Span))
    {blanks : Text}
    (hne : blanks ≠ []) (hblank : ∀ c ∈ blanks, Text.isBlank c) :
    ∃ span : Span, span.text = [blanks.getLast hne] ∧
      (star blank ++ (group () (plusLazy (one (· != '}'))) ++ (star blank ++ char '}'))).run
        ⟨between before (blanks ++ '}' :: rest), groups⟩ some =
          some ⟨between (some '}') rest, ((), span) :: groups⟩ := by
  induction blanks generalizing before with
  | nil => exact absurd rfl hne
  | cons c blanks ih =>
    obtain ⟨hc, hblanks⟩ := List.forall_mem_cons.mp hblank
    have hitem : (one Text.isBlank).run ⟨between before (c :: (blanks ++ '}' :: rest)), groups⟩
      some =
        some ⟨between (some c) (blanks ++ '}' :: rest), groups⟩ := by
      simp [hc]
    cases blanks with
    | nil =>
      refine ⟨_, spanTo_text before (some c) [c] ('}' :: rest), ?_⟩
      have hbrace : c ≠ '}' := by
        rintro rfl
        exact absurd hc (by decide)
      have hstop : ∀ goOn, (star blank).run ⟨between (some c) ('}' :: rest), groups⟩ goOn =
          goOn ⟨between (some c) ('}' :: rest), groups⟩ := fun goOn =>
        run_star_stop (run_one_of_head? (by rintro d ⟨⟩; decide))
      rw [run_append, blank, List.cons_append, run_star_step hitem (by simp), ← blank,
        List.nil_append, hstop]
      simp only [run_append, run_group, plusLazy, run_one_cons]
      rw [if_neg (by decide), Option.none_or, if_pos (by simpa using hbrace)]
      refine run_starLazy_here ?_
      exact run_closing (List.forall_mem_nil _)
    | cons d blanks =>
      obtain ⟨span, hspan, hrun⟩ := ih (some c) (List.cons_ne_nil d blanks) hblanks
      refine ⟨span, hspan, ?_⟩
      rw [run_append, blank, List.cons_append, run_star_step hitem (by simp), ← blank,
        ← run_append, hrun, Option.some_or]

/-- What the group of an expression holds: of blanks alone only the last one. -/
def captured (inner : Text) : Text :=
  if Text.isBlankText inner then inner.getLast?.toList else Text.trim inner

theorem trim_captured (inner : Text) : Text.trim (captured inner) = Text.trim inner := by
  rw [captured]
  split_ifs with hblank
  · rw [Text.trim_eq_nil_iff.mpr hblank, Text.trim_eq_nil_iff]
    refine List.all_eq_true.mpr fun c hc => List.all_eq_true.mp hblank c ?_
    exact List.mem_of_getLast? (Option.mem_toList.mp hc)
  · exact Text.trim_trim inner

theorem run_mergeField_of_brace {inner : Text} (hne : inner ≠ []) (hbrace : '}' ∉ inner)
    (before : Option Char) (rest : Text) :
    ∃ span : Span, span.text = captured inner ∧
      mergeField.run ⟨between before (opening ++ (inner ++ '}' :: rest)), []⟩ some =
        some ⟨between (some '}') rest, [((), span)]⟩ := by
  rw [captured]
  split_ifs with hblank
  · have hall : ∀ c ∈ inner, Text.isBlank c := List.all_eq_true.mp hblank
    obtain ⟨span, hspan, hrun⟩ := run_blanks (behind before opening) rest [] hne hall
    refine ⟨span, ?_, ?_⟩
    · rw [hspan, List.getLast?_eq_some_getLast hne, Option.toList_some]
    · simp only [mergeField_eq, run_append] at hrun ⊢
      rw [run_exactly_append]
      exact hrun
  · exact run_mergeField before rest hbrace (Bool.not_eq_true _ ▸ hblank)

theorem matchAt_mergeField_of_brace {inner : Text} (hne : inner ≠ []) (hbrace : '}' ∉ inner)
    (before : Option Char) (rest : Text) :
    ∃ hit, mergeField.matchAt (between before (opening ++ (inner ++ '}' :: rest))) = some hit ∧
      hit.stop = between (some '}') rest ∧ Text.trim (hit.group ()) = Text.trim inner := by
  obtain ⟨span, hspan, hrun⟩ := run_mergeField_of_brace hne hbrace before rest
  have hgroup : Text.trim span.text = Text.trim inner := by rw [hspan, trim_captured]
  refine ⟨_, by rw [matchAt, hrun]; rfl, rfl, ?_⟩
  exact hgroup

variable {fields : List Field}

namespace Field

/-- What stands between the delimiters. -/
def inner (field : Field) : Text := field.first ++ (field.content ++ field.last)

theorem source_append (field : Field) (rest : Text) :
    field.source ++ rest = opening ++ (field.inner ++ '}' :: rest) := by
  simp [source, inner]

theorem trim_inner (field : Field) : Text.trim field.inner = field.content :=
  Text.trim_padded field.first_blank field.trimmed field.content_ne field.last_blank

theorem inner_braceless (field : Field) : '}' ∉ field.inner := by
  have hblank : ∀ {blanks : Text}, (∀ c ∈ blanks, Text.isBlank c) → '}' ∉ blanks :=
    fun h hmem => absurd (h _ hmem) (by decide)
  simp [inner, hblank field.first_blank, field.braceless, hblank field.last_blank]

theorem not_isBlankText_inner (field : Field) : Text.isBlankText field.inner = false := by
  rw [← Bool.not_eq_true, ← Text.trim_eq_nil_iff, field.trim_inner]
  exact field.content_ne

/-- Blanks around what is left of a text after trimming make a field. -/
theorem exists_of_inner {inner : Text} (hbrace : '}' ∉ inner)
    (hfilled : Text.isBlankText inner = false) :
    ∃ field : Field, field.inner = inner ∧ field.content = Text.trim inner := by
  obtain ⟨first, last, hinner, hfirst, hlast⟩ := Text.exists_blanks inner
  have hne : Text.trim inner ≠ [] := by
    intro h
    rw [Text.trim_eq_nil_iff.mp h] at hfilled
    cases hfilled
  refine ⟨⟨first, Text.trim inner, last, hfirst, hlast, hne, Text.isTrimmed_trim inner, fun hmem =>
    ?_⟩, hinner.symm, rfl⟩
  exact hbrace (Text.mem_of_mem_trim hmem)

end Field

theorem Carries.scans (h : Carries OpensNone fields text) (before : Option Char) :
    ∃ after, Scans mergeField (seen (·.group ())) (between before text) (fields.map (·.content))
      (between after []) := by
  have hquiet : ∀ before {gap} rest, OpensNone gap → rest.head? ≠ some '!' →
      Quiet mergeField before gap rest := fun before _ rest hgap hrest =>
    quiet_of_not_isInfix (fun _ _ => matchAt_mergeField_of_not_isPrefix) hgap
      fun c hc => by
        rw [Option.mem_def.mp hc] at hrest
        simpa [opening] using hrest
  induction h generalizing before with
  | @gap gap hgap =>
    have hscan := (hquiet before [] hgap (by simp)).scans_seen (·.group ())
    rw [List.append_nil] at hscan
    exact ⟨_, hscan⟩
  | @field gap rest field fields hgap _ ih =>
    obtain ⟨after, hafter⟩ := ih (some '}')
    have hpassed := (hquiet before (field.source ++ rest) hgap
      (by simp [Field.source, opening])).scans_seen (·.group ())
    obtain ⟨hit, hmatch, hstop, hgroup⟩ := matchAt_mergeField (behind before gap) rest
      field.inner_braceless field.not_isBlankText_inner
    have hstart : between (behind before gap) (field.source ++ rest) =
        between (behind before gap) ('{' :: '!' :: (field.inner ++ '}' :: rest)) := by
      rw [field.source_append]
      rfl
    have hlt : hit.stop.left < (between (behind before gap) (field.source ++ rest)).left := by
      rw [hstop, hstart]
      simp
      omega
    rw [← hstart] at hmatch
    have hsingle := Scans.single (·.group ()) hmatch hlt
    rw [hstop, hgroup, field.trim_inner] at hsingle
    exact ⟨after, hpassed.append (hsingle.append hafter)⟩

/-- Wherever there is a match, a brace closes what was opened, with something in between. -/
theorem exists_inner_of_matchAt (h : mergeField.matchAt (between before text) ≠ none) :
    ∃ inner more, text = opening ++ (inner ++ '}' :: more) ∧ inner ≠ [] ∧ '}' ∉ inner := by
  have hfront : opening <+: text := by
    by_contra hnone
    exact h (matchAt_mergeField_of_not_isPrefix hnone)
  have hbrace : '}' ∈ text := by
    by_contra hnone
    exact h (matchAt_mergeField_of_not_mem hnone)
  obtain ⟨left, rfl⟩ := hfront
  have hmem : '}' ∈ left := by simpa [opening] using hbrace
  obtain ⟨inner, more, rfl, hinner⟩ := List.eq_append_cons_of_mem hmem
  refine ⟨inner, more, rfl, ?_, hinner⟩
  rintro rfl
  exact h matchAt_mergeField_empty

/-- What stands between delimiters is a field before the others, or blank and shown as nothing. -/
theorem Carries.prepend_inner {inner more : Text} (hinner : '}' ∉ inner)
    (h : Carries (fun _ => True) fields more) :
    ∃ fields', Carries (fun _ => True) fields' (opening ++ (inner ++ '}' :: more)) ∧
      fields'.map (·.content) = [Text.trim inner].filter (!·.isEmpty) ++
        fields.map (·.content) := by
  by_cases hblank : Text.isBlankText inner
  · refine ⟨fields, ?_, ?_⟩
    · simpa using h.prepend (opening ++ (inner ++ ['}']))
    · simp [Text.trim_eq_nil_iff.mpr hblank]
  · rw [Bool.not_eq_true] at hblank
    obtain ⟨field, rfl, hcontent⟩ := Field.exists_of_inner hinner hblank
    refine ⟨field :: fields, ?_, ?_⟩
    · rw [← field.source_append]
      exact (Carries.field trivial h : Carries _ (field :: fields) ([] ++ (field.source ++ more)))
    · simp [← hcontent, field.content_ne]

theorem exists_carries (text : Text) (before : Option Char) : ∃ fields groups after,
    Carries (fun _ => True) fields text ∧
      Scans mergeField (seen (·.group ())) (between before text) groups (between after []) ∧
      (groups.map Text.trim).filter (!·.isEmpty) = fields.map (·.content) := by
  induction hlength : text.length using Nat.strong_induction_on generalizing text before with
  | _ n ih =>
    by_cases hmatch : mergeField.matchAt (between before text) = none
    · cases text with
      | nil => exact ⟨[], [], before, .gap trivial, .done _, rfl⟩
      | cons c rest =>
        obtain ⟨fields, groups, after, hfields, hscan, hgroups⟩ :=
          ih rest.length (by simp [← hlength]) rest (some c) rfl
        exact ⟨fields, groups, after, hfields.prepend [c], .skip rfl hmatch hscan, hgroups⟩
    · obtain ⟨inner, more, rfl, hne, hinner⟩ := exists_inner_of_matchAt hmatch
      obtain ⟨hit, hhit, hstop, hgroup⟩ := matchAt_mergeField_of_brace hne hinner before more
      have hshorter : more.length < (opening ++ (inner ++ '}' :: more)).length := by
        simp only [List.length_append, List.length_cons]
        omega
      obtain ⟨fields, groups, after, hfields, hscan, hgroups⟩ :=
        ih more.length (hlength ▸ hshorter) more (some '}') rfl
      obtain ⟨fields', hfields', hcontents⟩ := hfields.prepend_inner hinner
      have hlt : hit.stop.left < (between before (opening ++ (inner ++ '}' :: more))).left := by
        rw [hstop]
        exact hshorter
      rw [← hstop] at hscan
      refine ⟨fields', _, after, hfields', (Scans.single (·.group ()) hhit hlt).append hscan, ?_⟩
      rw [hcontents, ← hgroups, List.singleton_append, List.map_cons, hgroup, ← List.filter_append]
      rfl

/-- In a text whose gaps open nothing exactly the fields are found. -/
theorem Carries.find_eq (h : Carries OpensNone fields text) :
    find text = fields.map (·.content) := by
  obtain ⟨after, hscan⟩ := h.scans none
  refine find_eq_of_scans hscan fun content hcontent => ?_
  obtain ⟨field, -, rfl⟩ := List.mem_map.mp hcontent
  exact ⟨field.trimmed, field.content_ne⟩

theorem exists_carries_find (text : Text) :
    ∃ fields, Carries (fun _ => True) fields text ∧ find text = fields.map (·.content) := by
  obtain ⟨fields, groups, after, hfields, hscan, hgroups⟩ := exists_carries text none
  have hall : mergeField.findAll () text = groups := hscan.hits
  exact ⟨fields, hfields, by rw [find, hall, hgroups]⟩

theorem isSimple_classified (content : Text) :
    Collection.isSimple ⟨content, classify content⟩ = (classify content == .simpleReference) := rfl

/-- A scan sorts what is found behind what was collected before. -/
theorem Collection.scan_eq (collection : Collection) (text context : Text) :
    collection.scan text context =
      ⟨collection.expressions ++ (find text).filter (classify · != .simpleReference),
        collection.references ++ ((find text).filter (classify · == .simpleReference)).map
          (.unresolved · context)⟩ := by
  simp [Collection.scan, Collection.add, Expression.scan, List.filter_map, Function.comp_def,
    isSimple_classified, bne]

theorem Collection.length_scan (collection : Collection) (text context : Text) :
    (collection.scan text context).expressions.length +
      (collection.scan text context).references.length =
      collection.expressions.length + collection.references.length + (find text).length := by
  have hparts := List.length_eq_length_filter_add (l := find text) (classify · == .simpleReference)
  rw [Collection.scan_eq]
  simp only [List.length_append, List.length_map, bne]
  omega

/-- Where gaps open nothing, exactly the fields are found, in order. In any text every content that
is found is trimmed, not empty and free of closing braces, and has a field of its own. A scan
returns one item for each content and adds it to the expressions, or with the context to the
references if it is simple, so both lists together grow by the number of contents. -/
theorem find_complete :
    (∀ fields text, Carries OpensNone fields text → find text = fields.map (·.content)) ∧
    (∀ text, ∃ fields, Carries (fun _ => True) fields text ∧ find text = fields.map (·.content)) ∧
    (∀ text, ∀ content ∈ find text, content ≠ [] ∧ Text.IsTrimmed content ∧ '}' ∉ content) ∧
    ∀ (collection : Collection) (text context : Text),
      scan text = (find text).map (fun content => ⟨content, classify content⟩) ∧
      (collection.scan text context).expressions =
        collection.expressions ++ (find text).filter (classify · != .simpleReference) ∧
      (collection.scan text context).references = collection.references ++
        ((find text).filter (classify · == .simpleReference)).map (.unresolved · context) ∧
      (collection.scan text context).expressions.length +
          (collection.scan text context).references.length =
        collection.expressions.length + collection.references.length + (find text).length := by
  refine ⟨fun _ _ => Carries.find_eq, exists_carries_find, fun text content hcontent => ?_,
    fun collection text context => ⟨rfl, ?_, ?_, collection.length_scan text context⟩⟩
  · obtain ⟨fields, -, hfind⟩ := exists_carries_find text
    rw [hfind] at hcontent
    obtain ⟨field, -, rfl⟩ := List.mem_map.mp hcontent
    exact ⟨field.content_ne, field.trimmed, field.braceless⟩
  · rw [Collection.scan_eq]
  · rw [Collection.scan_eq]

/-- A call, and an expression in which another one seems to open. -/
def nestedFields : List Field :=
  [⟨[' '], "save(\x7b!draft)".toList, [' ', '\n'], by decide, by decide, by decide, by decide, by
    decide⟩, ⟨[], "total".toList, ['\t'], by decide, by decide, by decide, by decide, by decide⟩]

theorem find_nestedFields : Carries OpensNone nestedFields
      "now \x7b\x7b! save(\x7b!draft) \n\x7d, \x7dand \x7b!total\t\x7d!".toList ∧
    find "now \x7b\x7b! save(\x7b!draft) \n\x7d, \x7dand \x7b!total\t\x7d!".toList =
      ["save(\x7b!draft)".toList, "total".toList] := by
  have htext : "now \x7b\x7b! save(\x7b!draft) \n\x7d, \x7dand \x7b!total\t\x7d!".toList =
      "now \x7b".toList ++ ((nestedFields[0]).source ++
        (", \x7dand ".toList ++ ((nestedFields[1]).source ++ ['!']))) := by
    simp [nestedFields, Field.source, opening]
  have hcarries :
    Carries OpensNone nestedFields
    "now \x7b\x7b! save(\x7b!draft) \n\x7d, \x7dand \x7b!total\t\x7d!".toList := by
    rw [htext]
    refine .field ?_ (.field ?_ (.gap ?_)) <;> (rw [OpensNone]; decide +kernel)
  exact ⟨hcarries, find_complete.1 _ _ hcarries⟩

end Expression
end Visualforce
