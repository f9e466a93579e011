import Visualforce.Page.Frequency
import Visualforce.Tools
import Visualforce.Proofs.Markup.Occurrence
import Visualforce.Proofs.Page.Walk
import Visualforce.Proofs.Page.BlockAttribution
import Visualforce.Proofs.Text.Dedupe
import Visualforce.Proofs.Text.Trim
import Visualforce.Proofs.Page.Degradation
import Visualforce.Proofs.Page.Representation
import Visualforce.Proofs.Pattern.Scan
import Visualforce.Proofs.Expression.Fields
import Visualforce.Proofs.Markup.Written
import Visualforce.Proofs.Markup.TagItem
import Visualforce.Proofs.Markup.Visible
import Visualforce.Proofs.Markup.Assignment
import Visualforce.Proofs.Markup.AttributeMap
import Visualforce.Proofs.Page.PlainRecovery
import Visualforce.Proofs.Markup.WrittenTree
import Visualforce.Proofs.Page.PlainTree
import Visualforce.Proofs.Xml.ReadTag
import Visualforce.Proofs.Xml.ReadElement
import Visualforce.Proofs.Page.Facts
import Visualforce.Proofs.Xml.ReadDocument
import Visualforce.Proofs.Markup.Conversion
import Visualforce.Proofs.Markup.LooseTag
import Visualforce.Proofs.Markup.NormalForm
import Visualforce.Proofs.Markup.NormalTag
import Visualforce.Proofs.Markup.Declarations
import Visualforce.Proofs.Markup.Qualifiers
import Visualforce.Proofs.Markup.Prepared
import Visualforce.Proofs.Markup.PlainBuild
import Visualforce.Proofs.Page.PlainAgreement
import Visualforce.Proofs.Page.Chain
import Visualforce.Proofs.Page.Dependencies
import Visualforce.Proofs.Markup.Render
import Visualforce.Proofs.Markup.RenderBuild
import Visualforce.Proofs.Pattern.Leads
import Visualforce.Proofs.Markup.Sections
import Visualforce.Proofs.Xml.ReadSection
import Visualforce.Proofs.Text.Somewhere
import Visualforce.Proofs.Markup.Inert
import Visualforce.Proofs.Markup.Around
import Visualforce.Proofs.Markup.Verbatim
import Visualforce.Proofs.Markup.LooseBuild
import Visualforce.Proofs.Page.Mentions
import Visualforce.Proofs.Page.Finish
import Visualforce.Proofs.Page.RecoverySteps
import Visualforce.Proofs.Page.RawFacts
import Visualforce.Proofs.Data.Value
import Visualforce.Proofs.Data.Writing
import Visualforce.Proofs.Data.Canonical
import Visualforce.Proofs.Page.Digest
import Visualforce.Proofs.Text.Words
import Visualforce.Proofs.Pattern.Keyword
import Visualforce.Proofs.Apex.Outline
import Visualforce.Proofs.Apex.Signature
import Visualforce.Proofs.Apex.Members
import Visualforce.Proofs.Apex.MemberScan
import Visualforce.Proofs.Apex.Nesting
import Visualforce.Proofs.Apex.RoundTrip
import Visualforce.Proofs.Apex.Commented
import Visualforce.Proofs.Apex.Comments
import Visualforce.Proofs.Apex.InertComments
import Visualforce.Proofs.Text.LineEnds
import Visualforce.Proofs.Page.LineEnds
import Visualforce.Proofs.Page.Contents
import Visualforce.Proofs.Markup.Comments
import Visualforce.Proofs.Markup.CommentedBuild
import Visualforce.Proofs.Markup.HiddenBody
import Visualforce.Proofs.Page.HiddenBody
import Visualforce.Proofs.Page.PageTag
import Visualforce.Proofs.Page.Bindings
import Visualforce.Proofs.Markup.Source
import Visualforce.Proofs.Xml.Accepted
import Visualforce.Proofs.Xml.AcceptedDocument
import Visualforce.Proofs.Apex.Braces
import Visualforce.Proofs.Markup.BuiltNames
import Visualforce.Proofs.Page.Metadata
import Visualforce.Proofs.Page.ScriptLimit
import Visualforce.Proofs.Page.StepFailure
import Visualforce.Proofs.Expression.Kinds
import Visualforce.Proofs.Pattern.Confined
import Visualforce.Proofs.Pattern.Related
import Visualforce.Proofs.Apex.InnerClasses
import Visualforce.Proofs.Apex.Annotations
import Visualforce.Proofs.Apex.MethodAnnotations
import Visualforce.Proofs.Apex.Prefaces
import Visualforce.Proofs.Apex.PrefaceTexts
import Visualforce.Proofs.Apex.PrefaceScan
import Visualforce.Proofs.Apex.PrefaceMembers
import Visualforce.Proofs.Apex.PrefaceReading
import Visualforce.Proofs.Apex.Documentation
import Visualforce.Proofs.Text.StableOrder
import Visualforce.Proofs.Expression.Ranking
import Visualforce.Proofs.Page.Frequency
import Visualforce.Proofs.Page.ResourceMentions
import Visualforce.Proofs.Page.IncludeDirectives
import Visualforce.Proofs.Page.StaticResources
import Visualforce.Proofs.Page.ScriptAttributes
import Visualforce.Proofs.Page.ScriptElements
import Visualforce.Proofs.Page.ScriptPage
import Visualforce.Proofs.Markup.AttributeTokens
import Visualforce.Proofs.Apex.DocLines
import Visualforce.Proofs.Apex.Blanking
import Visualforce.Proofs.Expression.LineEnds
import Visualforce.Proofs.Markup.LineEndBuild
import Visualforce.Proofs.Markup.LineEndVisible
import Visualforce.Proofs.Page.LineEndPatterns
import Visualforce.Proofs.Page.LineEndRaw
import Visualforce.Proofs.Page.LineEndRecovery
