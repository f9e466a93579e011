import Mathlib.Tactic.Tauto
import Visualforce.Proofs.Markup.Name
import Visualforce.Proofs.Markup.Reference
import Visualforce.Proofs.Markup.Written

/-! # Tokens of clear pages

A clear page is a sequence of tags and texts as it stands in a file. Only a tag begins with an
opening angle bracket and no token holds a second one, so a pattern that begins there meets each tag
exactly once. Values and texts have references in place of the characters that would end them.
-/
namespace Visualforce.Markup
open Pattern Cursor

/-- What can follow the name of a tag. -/
def EndsName (text : Text) : Prop :=
  ∃ c rest, text = c :: rest ∧ c ∈ [' ', '/', '>']

theorem EndsName.head? {text : Text} (h : EndsName text) {accepts : Char → Bool}
    (haccepts : ∀ c ∈ [' ', '/', '>'], accepts c = false) :
    ∀ c ∈ text.head?, accepts c = false := by
  obtain ⟨c, rest, rfl, hc⟩ := h
  rintro d ⟨⟩
  exact haccepts c hc

theorem EndsName.isWord_head? {text : Text} (h : EndsName text) :
    text.head?.any Text.isWord = false := by
  obtain ⟨c, rest, rfl, hc⟩ := h
  exact (by decide : ∀ c ∈ [' ', '/', '>'], Text.isWord c = false) c hc

theorem endsName_tagEnd (closes : Bool) (rest : Text) : EndsName (tagEnd closes ++ rest) := by
  cases closes with
  | false => exact ⟨'>', rest, rfl, by simp⟩
  | true => exact ⟨'/', '>' :: rest, rfl, by simp⟩

theorem endsName_attributeSource (head : Head) {rest : Text} (h : EndsName rest) :
    EndsName (head.attributeSource ++ rest) := by
  cases hattributes : head.attributes with
  | nil => simpa [Head.attributeSource, hattributes] using h
  | cons attr attributes =>
    refine ⟨' ', attr.name ++ '=' :: '"' :: (attr.value ++ '"' ::
      (attributes.flatMap Attribute.source ++ rest)), ?_, by simp⟩
    simp [Head.attributeSource, hattributes, Attribute.source]

/-- A character that stands for itself in a text and by which no name is qualified. -/
def isClearChar (c : Char) : Bool :=
  Xml.isLegal c && c != '\r' && !"<&\"':>".toList.contains c

def isClearValueChar (c : Char) : Bool := isClearChar c && 0x20 ≤ c.toNat || c == '>'

/-- A head whose values are written out in a file. -/
structure Head.IsClear (head : Head) : Prop where
  tag : IsUsable head.tag
  names : ∀ attr ∈ head.attributes, IsUsable attr.name ∧ attr.name ≠ "xmlns".toList
  distinct : (head.attributes.map (·.name)).Nodup
  values : ∀ attr ∈ head.attributes, IsLegible isClearValueChar attr.value

def Token.IsClear : Token → Prop
  | .text content => IsLegible isClearChar content
  | .opening head _ => head.IsClear
  | .closing tag => IsUsable tag

structure Head.IsTransparent (head : Head) : Prop where
  ascii : ∀ c ∈ head.tag, c.toNat < 128
  notOpaque : ∀ name ∈ Config.standard.opaqueTags, ¬ name <+: head.tag.map Char.toLower

def Token.IsTransparent : Token → Prop
  | .opening head _ => head.IsTransparent
  | _ => True

def Head.qualifiers (head : Head) : List Text :=
  qualifierOf head.tag ++ head.attributes.flatMap fun attr => qualifierOf attr.name

theorem Head.IsClear.isQualifier {head : Head} (h : head.IsClear) :
    ∀ qualifier ∈ head.qualifiers, IsQualifier qualifier := by
  refine List.forall_mem_append.mpr ⟨h.tag.isQualifier, fun qualifier hmem => ?_⟩
  obtain ⟨attr, hattr, hmem⟩ := List.mem_flatMap.mp hmem
  exact (h.names attr hattr).1.isQualifier qualifier hmem

/-- A character that no name and no value holds and that does not separate them is none of the
attributes of a tag. -/
theorem Head.IsClear.not_mem_attributeSource {head : Head} {c : Char} (h : head.IsClear)
    (hname : isPartChar c = false) (hvalue : isClearValueChar c = false)
    (href : isReferenceChar c = false) (hmarks : c ∉ [' ', '=', '"', ':']) :
    c ∉ head.attributeSource := by
  intro hc
  obtain ⟨attr, hattr, hc⟩ := List.mem_flatMap.mp hc
  have hin : c ∉ attr.name := (h.names attr hattr).1.spelling.not_mem hname fun heq =>
    hmarks (by simp [heq])
  have hin' : c ∉ attr.value := (h.values attr hattr).not_mem hvalue href
  simp [Attribute.source, hin, hin'] at hc hmarks
  tauto

theorem Head.IsClear.not_mem_source {head : Head} (h : head.IsClear) :
    '<' ∉ head.tag ++ head.attributeSource := by
  intro hmem
  rcases List.mem_append.mp hmem with hmem | hmem
  · exact h.tag.spelling.not_mem (by decide) (by decide) hmem
  · exact h.not_mem_attributeSource (by decide) (by decide) (by decide) (by decide) hmem

theorem Head.IsClear.quote_not_mem {head : Head} (h : head.IsClear) {attr : Attribute}
    (hattr : attr ∈ head.attributes) : '"' ∉ attr.value :=
  (h.values attr hattr).not_mem (by decide) (by decide)

theorem not_mem_text {content : Text} (h : IsLegible isClearChar content) : '<' ∉ content :=
  h.not_mem (by decide) (by decide)

/-- A tag is an opening angle bracket and characters that are none. -/
theorem Token.IsClear.source_cases {token : Token} (h : token.IsClear) :
    '<' ∉ token.source ∨ ∃ more, token.source = '<' :: more ∧ '<' ∉ more := by
  cases token with
  | text content => exact .inl (not_mem_text h)
  | opening head closes =>
    refine .inr ⟨_, rfl, ?_⟩
    rw [← List.append_assoc]
    intro hmem
    rcases List.mem_append.mp hmem with hmem | hmem
    · exact Head.IsClear.not_mem_source h hmem
    · cases closes <;> simp [tagEnd, slash] at hmem
  | closing tag =>
    refine .inr ⟨_, rfl, ?_⟩
    intro hmem
    rcases List.mem_cons.mp hmem with hmem | hmem
    · cases hmem
    · rcases List.mem_append.mp hmem with hmem | hmem
      · exact (IsUsable.spelling h).not_mem (by decide) (by decide) hmem
      · simp at hmem

section Encoded
variable {encode : Text → Text}

def Attribute.encoded (encode : Text → Text) (attr : Attribute) : Attribute :=
  ⟨attr.name, encode attr.value⟩

def Head.encoded (encode : Text → Text) (head : Head) : Head :=
  ⟨head.tag, head.attributes.map (·.encoded encode)⟩

def Token.encoded (encode : Text → Text) : Token → Token
  | .text content => .text (encode content)
  | .opening head closes => .opening (head.encoded encode) closes
  | .closing tag => .closing tag

/-- A head that is clear when it is written out, and whose values are read back. -/
structure Head.IsReadBack (encode : Text → Text) (head : Head) : Prop where
  clear : (head.encoded encode).IsClear
  values : ∀ attr ∈ head.attributes, Spells isClearValueChar (encode attr.value) attr.value

def Token.IsReadBack (encode : Text → Text) : Token → Prop
  | .text content => Spells isClearChar (encode content) content
  | .opening head _ => head.IsReadBack encode
  | .closing tag => IsUsable tag

/-- A head that is read back with values that a tree keeps as they are. -/
structure Head.IsSpelledBy (encode : Text → Text) (head : Head) : Prop where
  clear : (head.encoded encode).IsClear
  values : ∀ attr ∈ head.attributes,
    Text.IsTrimmed attr.value ∧ Spells isClearValueChar (encode attr.value) attr.value

def Token.IsSpelledBy (encode : Text → Text) : Token → Prop
  | .text content => Spells isClearChar (encode content) content
  | .opening head _ => head.IsSpelledBy encode
  | .closing tag => IsUsable tag

theorem Token.isTransparent_encoded (encode : Text → Text) (token : Token) :
    (token.encoded encode).IsTransparent ↔ token.IsTransparent := by
  cases token with
  | opening head closes => exact ⟨fun h => ⟨h.ascii, h.notOpaque⟩, fun h => ⟨h.ascii, h.notOpaque⟩⟩
  | _ => exact Iff.rfl

theorem Head.IsSpelledBy.isReadBack {head : Head} (h : head.IsSpelledBy encode) :
    head.IsReadBack encode :=
  ⟨h.clear, fun attr hattr => (h.values attr hattr).2⟩

theorem Token.IsSpelledBy.isReadBack {token : Token} (h : token.IsSpelledBy encode) :
    token.IsReadBack encode := by
  cases token with
  | text content => exact h
  | opening head closes => exact Head.IsSpelledBy.isReadBack h
  | closing tag => exact h

theorem Token.IsReadBack.isClear {token : Token} (h : token.IsReadBack encode) :
    (token.encoded encode).IsClear := by
  cases token with
  | text content => exact ⟨content, h⟩
  | opening head closes => exact Head.IsReadBack.clear h
  | closing tag => exact h

theorem Token.IsSpelledBy.isClear {token : Token} (h : token.IsSpelledBy encode) :
    (token.encoded encode).IsClear := h.isReadBack.isClear

namespace Head

variable {head : Head}

theorem qualifiers_encoded (encode : Text → Text) (head : Head) :
    (head.encoded encode).qualifiers = head.qualifiers := by
  simp [qualifiers, Head.encoded, Attribute.encoded, List.flatMap_map]

theorem IsReadBack.spelling (h : head.IsReadBack encode) : IsSpelling head.tag :=
  h.clear.tag.spelling

theorem IsReadBack.names (h : head.IsReadBack encode) :
    ∀ attr ∈ head.attributes, IsUsable attr.name ∧ attr.name ≠ "xmlns".toList :=
  fun attr hattr => h.clear.names (attr.encoded encode) (List.mem_map_of_mem hattr)

theorem IsReadBack.distinct (h : head.IsReadBack encode) :
    (head.attributes.map (·.name)).Nodup := by
  have hdistinct := h.clear.distinct
  rwa [Head.encoded, List.map_map] at hdistinct

end Head
end Encoded

end Visualforce.Markup
