import Visualforce.Proofs.Markup.Declarations
import Visualforce.Proofs.Markup.NormalTag
import Visualforce.Proofs.Text.Dedupe

/-! # Qualifiers of clear pages

The qualifiers in use on a clear page are those of its tags and attributes. Each of them is found
where it is used, and nothing else in the page looks like one.
-/
namespace Visualforce.Markup
open Pattern Cursor

variable {groups : List (Unit × Span)} {before : Option Char} {rest : Text} {tag : Text}
variable {goOn : Place Unit → Option (Place Unit)} {tokens : List Token} {token : Token}

def qualifierAt : Token → List Text
  | .text _ => []
  | .opening head _ => qualifierOf head.tag
  | .closing tag => qualifierOf tag

/-- A qualifier and the beginning of the name behind it. -/
def qualifiedName : Pattern Unit := group () qualifier ++ char ':' ++ one isTagNameStart

theorem begins_qualifiedName : Begins qualifiedName isTagNameStart :=
  ((Begins.group ((Begins.one _).append _) ()).append _).append _

theorem colon_of_isQualifierChar (before : Option Char) (c : Char) (rest : Text)
    (goOn : Place Unit → Option (Place Unit)) (groups : List (Unit × Span))
    (h : isQualifierChar c) :
    (char ':').run ⟨between before (c :: rest), groups⟩ goOn = none := by
  refine run_one_of_head? ?_
  rintro d ⟨⟩
  exact beq_false_of_ne fun heq => absurd (heq ▸ h) (by decide)

theorem run_qualifiedName_simple (h : isPart tag) (hrest : EndsName rest) :
    qualifiedName.run ⟨between before (tag ++ rest), groups⟩ goOn = none := by
  rw [qualifiedName, run_append, run_append, run_group, qualifier]
  refine (run_part h (fun _ h => h) (fun _ => isQualifierChar_of_isPartChar)
    (hrest.head? (by decide)) ?_).trans ?_
  · exact fun before c rest hc => colon_of_isQualifierChar before c rest _ _ hc
  · exact run_one_of_head? (hrest.head? (by decide))

theorem run_tagQualifier (htag : IsSpelling tag) (ends : Bool) (rest : Text) :
    tagQualifier.run ⟨between before ('<' :: (slash ends ++ (tag ++ rest))), groups⟩ goOn =
      qualifiedName.run ⟨between (behind (some '<') (slash ends)) (tag ++ rest), groups⟩ goOn := by
  have hsplit : tagQualifier.run ⟨between before ('<' :: (slash ends ++ (tag ++ rest))), groups⟩
    goOn =
      (maybe (char '/') ++ qualifiedName).run ⟨between (some '<') (slash ends ++ (tag ++ rest)),
        groups⟩
        goOn := rfl
  obtain ⟨c, more, rfl, hc, -⟩ := htag.exists_cons
  rw [hsplit, run_append, run_maybe, char]
  cases ends with
  | false =>
    have hne : c ≠ '/' := by
      rintro rfl
      exact absurd hc (by decide)
    simp [slash, hne]
  | true =>
    have hslash : qualifiedName.run ⟨between (some '<') ('/' :: c :: (more ++ rest)), groups⟩ goOn =
        none := by
      refine begins_qualifiedName _ _ _ _ ?_
      rintro d ⟨⟩
      decide
    simp [slash, hslash]

theorem begins_tagQualifier : Begins tagQualifier (· == '<') :=
  ((((Begins.one _).append _).append _).append _).append _

theorem matchAt_tagQualifier {space : Text} (hspace : isPart space) {c : Char}
    (hc : isTagNameStart c)
    (ends : Bool) (before : Option Char) (rest : Text) : ∃ hit,
      tagQualifier.matchAt (between before ('<' :: (slash ends ++ (space ++ ':' :: c :: rest)))) =
      some hit ∧
        hit.stop = between (some c) rest ∧ hit.group () = space := by
  let start := between before ('<' :: (slash ends ++ (space ++ ':' :: c :: rest)))
  let first := behind (some '<') (slash ends)
  let span := (between first (space ++ ':' :: c :: rest)).spanTo
    (between (behind first space) (':' :: c :: rest))
  have hrun : tagQualifier.run ⟨start, []⟩ some = some ⟨between (some c) rest, [((), span)]⟩ := by
    simp only [start]
    rw [run_tagQualifier (.simple hspace), qualifiedName, run_append, run_append, run_group,
      qualifier]
    refine run_part_of_some hspace (fun _ h => h) (fun _ => isQualifierChar_of_isPartChar) ?_ ?_
    · rintro d ⟨⟩
      decide
    · rw [char, run_one_cons, if_pos (by decide), run_one_cons, if_pos hc]
  exact ⟨⟨start, between (some c) rest, [((), span)]⟩, by rw [matchAt, hrun]; rfl, rfl,
    spanTo_text _ _ space _⟩

/-- A tag shows its qualifier, whether it opens or ends an element. -/
theorem yields_tag (h : token.IsClear) (htag : IsSpelling tag) (ends : Bool) {left : Text}
    (hsource : token.source = '<' :: (slash ends ++ (tag ++ left)))
    (hleft : ∀ rest, EndsName (left ++ rest)) :
    Yields tagQualifier (seen (·.group ())) anything token.source (qualifierOf tag) := by
  cases htag with
  | simple hname =>
    rw [qualifierOf_simple hname]
    refine Misses.yields (fun more hmore before rest groups goOn => ?_) begins_tagQualifier h
    obtain ⟨-, rfl⟩ := List.cons_eq_cons.mp (hsource.symm.trans hmore)
    rw [List.append_assoc, List.append_assoc, run_tagQualifier (.simple hname)]
    exact run_qualifiedName_simple hname (hleft rest)
  | @qualified space name hspace hname =>
    rw [qualifierOf_qualified hspace]
    obtain ⟨c, more, rfl, hc, -⟩ := exists_cons_of_isPart hname
    refine yields_of_hit begins_tagQualifier h fun before rest => ?_
    obtain ⟨hit, hmatch, hstop, hview⟩ :=
      matchAt_tagQualifier hspace hc ends before (more ++ left ++ rest)
    refine ⟨hit, some c, slash ends ++ (space ++ [':', c]), more ++ left, ?_, ?_, hstop, hview⟩
    · simp [hsource]
    · have htext : token.source ++ rest =
          '<' :: (slash ends ++ (space ++ ':' :: c :: (more ++ left ++ rest))) := by
        simp [hsource]
      rw [htext, hmatch]

theorem yields_tagQualifier (h : token.IsClear) :
    Yields tagQualifier (seen (·.group ())) anything token.source (qualifierAt token) := by
  cases token with
  | text content => exact (misses_text content h).yields begins_tagQualifier h
  | opening head closes =>
    have hhead : head.IsClear := h
    apply yields_tag h hhead.tag.spelling false rfl
    intro rest
    rw [List.append_assoc]
    exact endsName_attributeSource head (endsName_tagEnd closes rest)
  | closing tag =>
    exact yields_tag h (IsUsable.spelling h) true rfl fun rest => ⟨'>', rest, rfl, by simp⟩

theorem findAll_tagQualifier (h : ∀ token ∈ tokens, token.IsClear) :
    tagQualifier.findAll () (sourceOf tokens) = tokens.flatMap qualifierAt :=
  hits_sourceOf fun token htoken => yields_tagQualifier (h token htoken)

/-- What a name after a blank leads to; a place without a blank leads nowhere. -/
def afterBlank : Text → Option Char
  | [] => none
  | c :: rest => if Text.isBlank c then (rest.dropWhile isQualifierChar).head? else none

abbrev AvoidsColon : Text → Prop := Avoids afterBlank ':'

theorem matchAt_attributeQualifier {text : Text} (h : afterBlank text ≠ some ':') :
    attributeQualifier.matchAt (between before text) = none := by
  let next : Pattern Unit := char ':' ++ (plus (one isQualifierChar) ++ (star blank ++ char '='))
  have hnext : ∀ before text groups, text.head? ≠ some ':' →
      next.run ⟨between before text, groups⟩ some = none := by
    intro before text groups hhead
    apply Begins.append (Begins.one (· == ':')) _ before text groups _
    intro c hc
    refine beq_false_of_ne ?_
    rintro rfl
    exact hhead hc
  have hsplit : attributeQualifier.run ⟨between before text, []⟩ some =
      (blank ++ (group () qualifier ++ next)).run ⟨between before text, []⟩ some := rfl
  have hrun : attributeQualifier.run ⟨between before text, []⟩ some = none := by
    rw [hsplit, run_append]
    cases text with
    | nil => rfl
    | cons c text =>
      rw [blank, run_one_cons]
      split_ifs with hc
      · rw [afterBlank, if_pos hc] at h
        rw [run_append, run_group, qualifier, run_append]
        cases text with
        | nil => rfl
        | cons d text =>
          rw [run_one_cons]
          split_ifs with hd
          · rw [List.dropWhile_cons_of_pos
              (isQualifierChar_of_isPartChar (isPartChar_of_isTagNameStart hd))] at h
            refine (run_starOne_takeWhile text fun before c rest hc => ?_).trans (hnext _ _ _ h)
            refine hnext _ _ _ ?_
            rintro ⟨⟩
            exact absurd hc (by decide)
          · rfl
      · rfl
  rw [matchAt, hrun]
  rfl

theorem avoidsColon_nil : AvoidsColon [] := by
  intro passed _ hpassed
  rw [List.append_nil]
  cases passed with
  | nil => simp [afterBlank]
  | cons c passed =>
    rw [afterBlank]
    split_ifs
    · exact fun h => hpassed (.tail c ((List.dropWhile_suffix _).subset (List.mem_of_head? h)))
    · simp

/-- No name leads over a character that ends it to the colon of another name. -/
theorem avoidsColon_cons {c : Char} (hc : isQualifierChar c = false) (hne : c ≠ ':') (rest : Text) :
    AvoidsColon (c :: rest) := by
  intro passed hpassed hmem
  cases passed with
  | nil => exact absurd rfl hpassed
  | cons d passed =>
    rw [List.cons_append, afterBlank]
    split_ifs
    · obtain ⟨left, hleft, heq⟩ := Text.exists_suffix_dropWhile isQualifierChar passed hc rest
      rw [heq]
      exact Text.head?_append_ne (fun h => hmem (.tail d (hleft.subset h))) (by simpa using hne)
    · simp

theorem begins_attributeQualifier : Begins attributeQualifier Text.isBlank :=
  ((((Begins.one _).append _).append _).append _).append _ |>.append _

theorem yields_of_no_colon {passed : Text} (h : ':' ∉ passed) :
    Yields attributeQualifier (seen (·.group ())) AvoidsColon passed [] :=
  yields_of_avoids (fun _ _ => matchAt_attributeQualifier) h

theorem yields_attributeQualifier_tag {name : Text} (h : ∀ c ∈ name, Text.isBlank c = false) :
    Yields attributeQualifier (seen (·.group ())) AvoidsColon ('<' :: name) [] := by
  refine .of_quiet (fun rest _ => avoidsColon_cons (by decide) (by decide) _) ?_
  intro before rest _
  exact begins_attributeQualifier.quiet (List.forall_mem_cons.mpr ⟨by decide, h⟩) before rest

theorem matchAt_qualifiedAttribute {space base : Text} (hspace : isPart space) (hbase : isPart base)
    (before : Option Char) (rest : Text) : ∃ hit,
    attributeQualifier.matchAt (between before (' ' :: (space ++ ':' :: (base ++ '=' :: rest)))) =
    some hit ∧
      hit.stop = between (some '=') rest ∧ hit.group () = space := by
  let start := between before (' ' :: (space ++ ':' :: (base ++ '=' :: rest)))
  let span := (between (some ' ') (space ++ ':' :: (base ++ '=' :: rest))).spanTo
    (between (behind (some ' ') space) (':' :: (base ++ '=' :: rest)))
  have hrun : attributeQualifier.run ⟨start, []⟩ some =
    some ⟨between (some '=') rest, [((), span)]⟩ := by
    simp only [attributeQualifier, run_append, start]
    rw [blank, run_one_cons, if_pos (by decide), run_group, qualifier]
    refine run_part_of_some hspace (fun _ h => h) (fun _ => isQualifierChar_of_isPartChar) ?_ ?_
    · rintro d ⟨⟩
      decide
    · rw [char, run_one_cons, if_pos (by decide)]
      refine run_plusOne_of_some (ne_nil_of_isPart hbase)
        (fun c hc => isQualifierChar_of_isPartChar (forall_mem_of_isPart hbase c hc)) ?_ ?_
      · rintro d ⟨⟩
        decide
      · rw [run_star_stop]
        · simp [char]
          rfl
        · refine run_one_of_head? ?_
          rintro d ⟨⟩
          decide
  exact ⟨⟨start, between (some '=') rest, [((), span)]⟩, by rw [matchAt, hrun]; rfl, rfl,
    spanTo_text _ _ space _⟩

theorem yields_attribute {attr : Attribute} (hname : IsSpelling attr.name)
    (hvalue : ':' ∉ attr.value) :
    Yields attributeQualifier (seen (·.group ())) AvoidsColon attr.source
      (qualifierOf attr.name) := by
  obtain ⟨name, value⟩ := attr
  have hquoted : ':' ∉ '"' :: (value ++ ['"']) := by simpa using hvalue
  cases hname with
  | simple hbase =>
    rw [qualifierOf_simple hbase]
    refine yields_of_no_colon ?_
    simpa [Attribute.source] using ⟨not_mem_of_isPart hbase (by decide), hvalue⟩
  | @qualified space base hspace hbase =>
    change Yields _ _ _ (Attribute.mk (space ++ ':' :: base) value).source
      (qualifierOf (space ++ ':' :: base))
    rw [qualifierOf_qualified hspace]
    have hsource : ∀ rest, (Attribute.mk (space ++ ':' :: base) value).source ++ rest =
        ' ' :: (space ++ ':' :: (base ++ '=' :: ('"' :: (value ++ ['"']) ++ rest))) := by
      simp [Attribute.source]
    refine .of_hit (fun rest _ => ?_) fun before rest hrest => ?_
    · rw [hsource]
      exact avoidsColon_cons (by decide) (by decide) _
    · obtain ⟨hit, hmatch, hstop, hview⟩ :=
        matchAt_qualifiedAttribute hspace hbase before ('"' :: (value ++ ['"']) ++ rest)
      refine ⟨hit, some '=', '"' :: (value ++ ['"']), by rw [hsource, hmatch], hstop, ?_, hview,
        quiet_of_avoids (fun _ _ => matchAt_attributeQualifier) hquoted hrest⟩
      simp [Attribute.source]
      omega

def attributeQualifiersAt : Token → List Text
  | .opening head _ => head.attributes.flatMap fun attr => qualifierOf attr.name
  | _ => []

theorem not_isBlank_of_mem (htag : IsSpelling tag) : ∀ c ∈ tag, Text.isBlank c = false :=
  htag.forall_mem (fun _ => isBlank_of_isPartChar) (by decide)

/-- Whatever stands behind it, a start tag shows the qualifiers of its attributes. -/
theorem yields_attributeQualifier_opening {head : Head} (h : head.IsClear) (closes : Bool) :
    Yields attributeQualifier (seen (·.group ())) anything (Token.opening head closes).source
      (attributeQualifiersAt (.opening head closes)) := by
  have hattributes : Yields attributeQualifier (seen (·.group ())) AvoidsColon
      head.attributeSource (attributeQualifiersAt (.opening head closes)) := by
    refine .flatMap fun attr hattr => yields_attribute (h.names attr hattr).1.spelling ?_
    exact (h.values attr hattr).not_mem (by decide) (by decide)
  have hend : Yields attributeQualifier (seen (·.group ())) anything (tagEnd closes) [] :=
    .of_quiet (fun _ _ => trivial) fun before rest _ =>
      begins_attributeQualifier.quiet (by cases closes <;> decide) before rest
  have hclosing : ∀ rest, AvoidsColon (tagEnd closes ++ rest) := by
    cases closes with
    | false => exact avoidsColon_cons (by decide) (by decide)
    | true => exact fun rest => avoidsColon_cons (by decide) (by decide) ('>' :: rest)
  have hyields := ((yields_attributeQualifier_tag (not_isBlank_of_mem h.tag.spelling)).append
    hattributes).append_closing hend hclosing
  rw [List.nil_append, List.append_nil] at hyields
  simpa [Token.source] using hyields

theorem yields_attributeQualifier (h : token.IsClear) :
    Yields attributeQualifier (seen (·.group ())) AvoidsColon token.source
      (attributeQualifiersAt token) := by
  cases token with
  | text content => exact yields_of_no_colon (IsLegible.not_mem h (by decide) (by decide))
  | closing tag =>
    refine yields_attributeQualifier_tag (List.forall_mem_cons.mpr ⟨by decide, ?_⟩)
    exact List.forall_mem_append.mpr ⟨not_isBlank_of_mem (IsUsable.spelling h), by decide⟩
  | opening head closes =>
    exact (yields_attributeQualifier_opening h closes).of_anything fun rest _ =>
      avoidsColon_cons (by decide) (by decide) _

theorem findAll_attributeQualifier (h : ∀ token ∈ tokens, token.IsClear) :
    attributeQualifier.findAll () (sourceOf tokens) = tokens.flatMap attributeQualifiersAt :=
  (Yields.flatMap fun token htoken => yields_attributeQualifier (h token htoken)).hits
    avoidsColon_nil

/-- The qualifiers that the tags of a page use, and then those of its attributes. -/
def qualifiersOf (tokens : List Token) : List Text :=
  dedupe (tokens.flatMap qualifierAt ++ tokens.flatMap attributeQualifiersAt)

theorem isQualifier_of_mem_token {name : Text} (h : token.IsClear)
    (hname : name ∈ qualifierAt token ∨ name ∈ attributeQualifiersAt token) : IsQualifier name := by
  cases token with
  | text content => rcases hname with hname | hname <;> cases hname
  | opening head closes => exact Head.IsClear.isQualifier h name (List.mem_append.mpr hname)
  | closing tag =>
    rcases hname with hname | hname
    · exact IsUsable.isQualifier h name hname
    · cases hname

theorem mem_qualifiersOf {name : Text} : name ∈ qualifiersOf tokens ↔
    ∃ token ∈ tokens, name ∈ qualifierAt token ∨ name ∈ attributeQualifiersAt token := by
  rw [qualifiersOf, mem_dedupe, List.mem_append, List.mem_flatMap, List.mem_flatMap, ← exists_or]
  simp only [and_or_left]

theorem isQualifier_of_mem_qualifiersOf (h : ∀ token ∈ tokens, token.IsClear) :
    ∀ name ∈ qualifiersOf tokens, IsQualifier name := by
  intro name hname
  obtain ⟨token, htoken, hname⟩ := mem_qualifiersOf.mp hname
  exact isQualifier_of_mem_token (h token htoken) hname

theorem qualifiers_subset_qualifiersOf {head : Head} (hhead : head ∈ headsOf tokens) :
    head.qualifiers ⊆ qualifiersOf tokens := by
  obtain ⟨token, htoken, heq⟩ := List.mem_filterMap.mp hhead
  cases token with
  | text content => cases heq
  | closing tag => cases heq
  | opening other closes =>
    cases heq
    exact fun name hname => mem_qualifiersOf.mpr ⟨_, htoken, List.mem_append.mp hname⟩

/-- All qualifiers that a clear page uses are undeclared in it, if it declares none. -/
theorem undeclared_sourceOf (h : ∀ token ∈ tokens, token.IsClear)
    (hnone : declarations (sourceOf tokens) = []) :
    undeclared (sourceOf tokens) = qualifiersOf tokens := by
  rw [undeclared, hnone, findAll_tagQualifier h, findAll_attributeQualifier h]
  apply List.filter_eq_self.mpr
  intro name hname
  simp [(isQualifier_of_mem_qualifiersOf h name hname).free]

end Visualforce.Markup
