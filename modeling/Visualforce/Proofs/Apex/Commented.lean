import Visualforce.Proofs.Apex.Outline

/-! # Outlines with comments

Blanks and comments may stand between the members of a class. A comment is ordinary when a reader
that does not tell comments from code takes nothing in it for the front of a declaration.
-/
namespace Visualforce.Apex
open Pattern

/-- What may stand between members. -/
inductive Filler where
  | blanks (text : Text)
  | line (text : Text)
  | block (text : Text)

/-- What a class is written with: its members, and what stands between them. -/
inductive Entry where
  | filler (filler : Filler)
  | property (signature : Signature)
  | method (annotations : List Text) (signature : Signature) (parameters : Text)
  | inner (name : Text) (entries : List Entry)

def lineComment (text : Text) : Text := '/' :: '/' :: (text ++ ['\n'])

def blockComment (text : Text) : Text := '/' :: '*' :: (text ++ ['*', '/'])

def Filler.source : Filler → Text
  | .blanks text => text
  | .line text => lineComment text
  | .block text => blockComment text

mutual
def Entry.source : Entry → Text
  | .filler filler => filler.source
  | .property signature => (Member.property signature).source
  | .method annotations signature parameters =>
      (Member.method annotations signature parameters).source
  | .inner name entries => classHead name ++ entriesSource entries ++ ['\x7d']

def entriesSource : List Entry → Text
  | [] => []
  | entry :: rest => entry.source ++ entriesSource rest
end

mutual
def Entry.members : Entry → List Member
  | .filler _ => []
  | .property signature => [.property signature]
  | .method annotations signature parameters => [.method annotations signature parameters]
  | .inner name entries => [.inner name (membersOf entries)]

def membersOf : List Entry → List Member
  | [] => []
  | entry :: rest => entry.members ++ membersOf rest
end

/-- What may be the front of a declaration: the word of a class or a visibility in front of a blank,
an annotation in front of a blank or a parenthesis, and the mark of documentation. -/
def declarationLeads : List (Pattern Unit) :=
  [wordEdge ++ anyCase "class" ++ blank, visibility ++ blank,
    char '@' ++ plus wordChar ++ one (fun c => Text.isBlank c || c == '('), literal "/**"]

def declarationLead : Pattern Unit := firstOf declarationLeads

/-- Nothing in the comment may be the front of a declaration. -/
def IsOrdinaryComment (comment : Text) : Prop := declarationLead.occursIn comment = false

instance (comment : Text) : Decidable (IsOrdinaryComment comment) :=
  inferInstanceAs (Decidable (_ = _))

def Filler.IsOrdinary : Filler → Prop
  | .blanks text => ∀ c ∈ text, Text.isBlank c
  | .line text => '\n' ∉ text ∧ IsOrdinaryComment (lineComment text)
  | .block text => ¬ ['*', '/'] <:+: text ∧ IsOrdinaryComment (blockComment text)

mutual
def Entry.IsPlain : Entry → Prop
  | .filler filler => filler.IsOrdinary
  | .property signature => signature.IsPlain
  | .method annotations signature parameters =>
    (∀ name ∈ annotations, IsIdentifier name) ∧ signature.IsPlain ∧ IsParameters parameters
  | .inner name entries => IsIdentifier name ∧ EntriesArePlain entries

def EntriesArePlain : List Entry → Prop
  | [] => True
  | entry :: rest => entry.IsPlain ∧ EntriesArePlain rest
end

end Visualforce.Apex
