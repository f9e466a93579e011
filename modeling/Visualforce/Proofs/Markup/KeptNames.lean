import Mathlib.Data.List.Forall2
import Visualforce.Markup.Build
import Visualforce.Proofs.Markup.AttributeMap
import Visualforce.Proofs.Markup.DeclaredTags
import Visualforce.Proofs.Markup.Occurrence
import Visualforce.Proofs.Xml.AcceptedDocument

/-! # Names that are kept

Names are expanded when a document is read and get their qualifiers back when its tree is built,
from the declarations that the text shows. They come back as they are written when every namespace
has one qualifier.
-/
namespace Visualforce.Markup
open Xml (spelled Expands Opens IsLiteral declaredIn HasFlatDoctype xmlSpace)

variable {config : Config} {text document : Text} {root : Xml.Element} {tree : Element}
    {tag : LooseTag}
variable {tags : List LooseTag}

/-- The heads of a tree, each one before those inside of it. -/
def Element.heads (root : Element) : List Head := root.head :: root.below.map (·.head)

theorem occurrencesIn_append (place : List Nat) (first : Nat) (nodes others : List Node) :
    occurrencesIn place first (nodes ++ others) =
      occurrencesIn place first nodes ++ occurrencesIn place (first + nodes.length) others := by
  induction nodes generalizing first with
  | nil => rfl
  | cons node nodes ih =>
    rw [List.cons_append, occurrencesIn, ih, occurrencesIn, List.append_assoc, List.length_cons,
      Nat.add_assoc, Nat.add_comm 1]

mutual
theorem heads_node (conversion : Conversion) (place : List Nat) (first : Nat) : ∀ node : Xml.Node,
    (occurrencesIn place first (conversion.node node)).map (·.head) = node.heads.map fun head =>
    conversion.head head.1 head.2
  | .text content => by
    rw [Conversion.node]
    split_ifs <;> rfl
  | .element name attributes children => by
    rw [Conversion.node, occurrencesIn, Node.occurrences, occurrencesIn, List.append_nil,
      List.map_cons, heads_nodes conversion _ 0 children, Xml.Node.heads, List.map_cons]

theorem heads_nodes (conversion : Conversion) (place : List Nat) (first : Nat) : ∀ nodes :
    List Xml.Node, (occurrencesIn place first (conversion.nodes nodes)).map (·.head) =
      (Xml.Node.headsOfList nodes).map fun head => conversion.head head.1 head.2
  | [] => rfl
  | node :: nodes => by
    rw [Conversion.nodes, occurrencesIn_append, List.map_append,
      heads_node conversion place first node, heads_nodes conversion place _ nodes,
      Xml.Node.headsOfList, List.map_append]
end

/-- A tree has the heads of the document that it is built from. -/
theorem heads_element (conversion : Conversion) (root : Xml.Element) :
    (conversion.element root).heads = root.heads.map fun head => conversion.head head.1 head.2 := by
  rw [Element.heads, Conversion.element, Element.below, heads_nodes, Xml.Element.heads,
    Xml.Element.toNode, Xml.Node.heads, List.map_cons]

/-- Each namespace that the document declares has one qualifier, and the declarations of its start
tags are found as they are written. The qualifier that needs no declaration has one where it is
used. -/
structure DeclaresPlainly (document : Text) : Prop where
  once : ∀ first ∈ declarations document, ∀ second ∈ declarations document, first.2 = second.2 →
    first.1 = second.1
  found : ∀ tags, Writes document tags [] → ∀ tag ∈ tags, ∀ entry ∈ tag.declared,
    IsLiteral entry.2 ∧ (entry.1.getD [], entry.2) ∈ declarations document
  reserved : ∀ tags, Writes document tags [] →
    ∀ tag ∈ tags, ∀ name ∈ tag.name :: tag.ownAttributes.map (·.name), (spelled name).qualifier =
      some "xml".toList → ("xml".toList, xmlSpace) ∈ declarations document

/-- The element has the name of the tag and the names of its attributes but for declarations, none
of them twice. -/
structure KeepsNames (tag : LooseTag) (head : Head) : Prop where
  name : head.tag = tag.name
  attributes : head.attributes.map (·.name) = tag.ownAttributes.map (·.name)
  distinct : (head.attributes.map (·.name)).Nodup
  agree : ∀ name, head.attributeMap.get? name = head.get? name

theorem qualify_of_expands {name : Text} {expanded : Xml.Name} (hplain : DeclaresPlainly document)
    (hwrites : Writes document tags []) (hname : Xml.IsName name)
    (hreserved : (spelled name).qualifier = some "xml".toList →
    ("xml".toList, xmlSpace) ∈ declarations document)
    (h : Expands (declaredIn tags) (spelled name) expanded) :
    qualify (declarations document) expanded = name := by
  obtain ⟨hbase, hspace⟩ := h
  obtain ⟨hread, htext⟩ := hname.isRead
  rw [Xml.WrittenName.text, ← hbase] at htext
  obtain ⟨hnone, hqualifier⟩ | ⟨raw, hraw, hliteral⟩ := hspace
  · rw [hqualifier] at htext
    rw [qualify, hnone]
    exact htext
  · have hdeclared : IsLiteral raw ∧ ((spelled name).qualifier.getD [], raw) ∈ declarations
      document := by
      obtain heq | hdeclared := List.mem_cons.mp hraw
      · obtain ⟨hqualifier, rfl⟩ := Prod.mk.inj heq
        rw [hqualifier]
        exact ⟨by unfold IsLiteral; decide, hreserved hqualifier⟩
      · obtain ⟨tag, htag, hentry⟩ := List.mem_flatMap.mp hdeclared
        exact hplain.found tags hwrites tag htag _ hentry
    obtain ⟨hkept, hfound⟩ := hdeclared
    -- whatever qualifier is found last for the namespace is the one that is written
    obtain ⟨last, hlast⟩ : ∃ last, (declarations document).reverse.find? (·.2 == raw) = some last :=
      Option.isSome_iff_exists.mp
        (List.find?_isSome.mpr ⟨_, List.mem_reverse.mpr hfound, beq_self_eq_true raw⟩)
    have hsame : last.1 = (spelled name).qualifier.getD [] := by
      have hspace := List.find?_some hlast
      exact hplain.once last (List.mem_reverse.mp (List.mem_of_find?_eq_some hlast)) _ hfound
        (beq_iff_eq.mp hspace)
    rw [qualify, hliteral hkept]
    simp only [hlast, hsame]
    cases hwritten : (spelled name).qualifier with
    | none =>
      rw [hwritten] at htext
      exact htext
    | some qualifier =>
      rw [hwritten] at htext
      have hne : qualifier.isEmpty = false := by
        obtain ⟨c, more, rfl, -⟩ :=
          Xml.exists_cons_of_isNameRun (hread.qualifier qualifier hwritten)
        rfl
      rw [Option.getD_some, hne]
      exact htext

theorem keepsNames_of_opens {trim : Bool} {head : Xml.Name × List (Xml.Name × Text)}
    (hplain : DeclaresPlainly document)
    (hwrites : Writes document tags []) (htag : tag ∈ tags) (h : Opens (declaredIn tags) tag head) :
    KeepsNames tag ((Conversion.mk (declarations document) trim).head head.1 head.2) := by
  have hreserved := List.forall_mem_cons.mp (hplain.reserved tags hwrites tag htag)
  have hnames : List.Forall₂ (· = ·)
      (((Conversion.mk (declarations document) trim).head head.1 head.2).attributes.map (·.name))
      (tag.ownAttributes.map (·.name)) := by
    rw [Conversion.head, List.map_map, List.forall₂_map_left_iff, List.forall₂_map_right_iff]
    refine .flip (((List.forall₂_and_left _ _).mpr ⟨fun _ hattr => hattr, h.attributes⟩).imp
      fun attr entry hentry => ?_)
    obtain ⟨hattr, hexpands⟩ := hentry
    exact qualify_of_expands hplain hwrites
      (h.accepted.attributes attr (List.mem_filter.mp hattr).1).1
      (hreserved.2 _ (List.mem_map_of_mem hattr)) hexpands
  rw [List.forall₂_eq_eq_eq] at hnames
  have hdistinct : (tag.ownAttributes.map (·.name)).Nodup :=
    h.accepted.distinct.sublist (List.filter_sublist.map _)
  rw [← hnames] at hdistinct
  exact ⟨qualify_of_expands hplain hwrites h.accepted.name hreserved.1 h.name, hnames, hdistinct,
    Head.get?_attributeMap hdistinct⟩

theorem build_namesOfPrepared (hbuild : build config text = .ok tree)
    (hflat : HasFlatDoctype (prepare config text))
    (hplain : DeclaresPlainly (prepare config text)) :
    ∃ tags, Writes (prepare config text) tags [] ∧ (∀ tag ∈ tags, '<' ∉ tag.source.tail) ∧
      List.Forall₂ KeepsNames tags tree.heads := by
  rw [build] at hbuild
  cases hread : Xml.read (prepare config text) with
  | error fault => simp [hread] at hbuild
  | ok root =>
    simp only [hread] at hbuild
    split_ifs at hbuild
    obtain rfl := Except.ok.inj hbuild
    obtain ⟨tags, hwrites, hopens⟩ := Xml.read_eq_ok hflat hread
    refine ⟨tags, hwrites, fun tag htag => ?_, ?_⟩
    · obtain ⟨_, -, hopened⟩ := Xml.exists_of_forall₂ hopens htag
      exact hopened.accepted.bracket
    · rw [heads_element, List.forall₂_map_right_iff]
      refine ((List.forall₂_and_left _ _).mpr ⟨fun _ htag => htag, hopens⟩).imp fun tag head
        hhead => ?_
      exact keepsNames_of_opens hplain hwrites hhead.1 hhead.2

end Visualforce.Markup
