import Visualforce.Proofs.Markup.Inert
import Visualforce.Proofs.Page.RecoverySteps
import Visualforce.Proofs.Pattern.Keyword

/-! # The page tag of a recovered page

A recovery takes the settings of a page from its first intact page tag. A setting that this tag does
not give is looked for in the whole visible text, also when there is a page tag.
-/
namespace Visualforce.Page
open Pattern Cursor Markup

variable {config : Config} {text inside tag name rest : Text} {before : Option Char}
variable {groups : List (Unit × Span)} {goOn : Place Unit → Option (Place Unit)}

/-- A text in which every quote is closed and no tag ends outside of quotes. -/
inductive IsInside : Text → Prop where
  | nil : IsInside []
  | char {c : Char} {rest : Text} (hc : c ∉ ['>', '"', '\'']) (hrest : IsInside rest) :
      IsInside (c :: rest)
  | quoted {quote : Char} {value rest : Text} (hquote : quote ∈ ['"', '\''])
      (hvalue : quote ∉ value)
      (hrest : IsInside rest) : IsInside (quote :: (value ++ quote :: rest))

namespace IsInside

theorem of_all (h : ∀ c ∈ text, c ∉ ['>', '"', '\'']) : IsInside text := by
  induction text with
  | nil => exact .nil
  | cons c text ih =>
    obtain ⟨hc, htext⟩ := List.forall_mem_cons.mp h
    exact .char hc (ih htext)

theorem append (h : IsInside text) (hrest : IsInside rest) : IsInside (text ++ rest) := by
  induction h with
  | nil => exact hrest
  | char hc _ ih => exact .char hc ih
  | quoted hquote hvalue _ ih =>
    rw [List.cons_append, List.append_assoc]
    exact .quoted hquote hvalue ih

end IsInside

theorem run_tagItem_of_quote {quote : Char} {value : Text} (hquote : quote ∈ ['"', '\''])
    (hvalue : quote ∉ value) :
    tagItem.run ⟨between before (quote :: (value ++ quote :: rest)), groups⟩ some =
      some ⟨between (some quote) rest, groups⟩ := by
  simp only [List.mem_cons, List.not_mem_nil, or_false] at hquote
  rcases hquote with rfl | rfl
  · exact run_tagItem_quoted hvalue
  · have hnone : (noneOf ">\"'" : Pattern Unit).run
        ⟨between before ('\'' :: (value ++ '\'' :: rest)), groups⟩ some = none := by
      refine run_one_of_head? ?_
      rintro c ⟨⟩
      decide
    have hdouble : (quotedWith '"' : Pattern Unit).run
        ⟨between before ('\'' :: (value ++ '\'' :: rest)), groups⟩ some = none := by
      simp [quotedWith, char]
    rw [tagItem_eq, run_alt, run_alt, hnone, hdouble, run_quotedWith hvalue rfl]
    rfl

theorem IsInside.run_star (h : IsInside inside) {last : Place Unit}
    (hgo : goOn ⟨between (behind before inside) ('>' :: rest), groups⟩ = some last) :
    (star tagItem).run ⟨between before (inside ++ '>' :: rest), groups⟩ goOn = some last := by
  induction h generalizing before with
  | nil => exact (run_star_stop run_tagItem_close).trans hgo
  | char hc _ ih => exact run_star_step_of_some (run_tagItem_char hc) (by simp) (ih hgo)
  | quoted hquote hvalue _ ih =>
    rw [List.cons_append, List.append_assoc, List.cons_append]
    refine run_star_step_of_some (run_tagItem_of_quote hquote hvalue) ?_ (ih ?_)
    · simp
      omega
    · rw [behind_cons, behind_append, behind_cons] at hgo
      exact hgo

theorem isInside_of_leads {here there : Place Unit} (h : Leads (star tagItem) here there) :
    ∃ inside, here.cursor.rest = inside ++ there.cursor.rest ∧ IsInside inside := by
  generalize hpattern : star tagItem = pattern at h
  induction h with
  | stop => exact ⟨[], rfl, .nil⟩
  | @step _ _ here middle there hitem _ _ ih =>
    obtain ⟨rfl, rfl⟩ := many.inj hpattern
    obtain ⟨inside, hrest, hinside⟩ := ih rfl
    obtain ⟨pattern, hmem, hlead⟩ := hitem.firstOf_inv
    have hquoted : ∀ quote ∈ ['"', '\''], Leads (quotedWith quote) here middle →
        ∃ inside, here.cursor.rest = inside ++ there.cursor.rest ∧ IsInside inside := by
      intro quote hquote hlead
      obtain ⟨next, hlead, hclose⟩ := leads_append.mp hlead
      obtain ⟨first, hopen, hmany⟩ := leads_append.mp hlead
      obtain ⟨value, hvalue, hall, -⟩ := hmany.manyOne_inv
      refine ⟨quote :: (value ++ quote :: inside), ?_, .quoted hquote ?_ hinside⟩
      · rw [hopen.char_inv.1, hvalue, hclose.char_inv.1, hrest]
        simp
      · intro hmem
        exact bne_iff_ne.mp (hall quote hmem) rfl
    simp only [List.mem_cons, List.not_mem_nil, or_false] at hmem
    rcases hmem with rfl | rfl | rfl
    · obtain ⟨c, hc, hnone, -⟩ := hlead.one_inv
      refine ⟨c :: inside, by rw [hc, hrest]; rfl, .char ?_ hinside⟩
      simpa using hnone
    · exact hquoted '"' (by decide) hlead
    · exact hquoted '\'' (by decide) hlead
  | _ => cases hpattern

def pageTagName : Text := "<apex:page".toList

/-- The text begins with an intact page tag that holds `inside` behind its name. -/
def BeginsPageTag (inside text : Text) : Prop :=
  ∃ name rest, text = name ++ (inside ++ '>' :: rest) ∧ SameUpToCase pageTagName name ∧
    IsInside inside ∧
    ∀ c ∈ inside.head?, Text.isWord c = false

def HasNoPageTag (text : Text) : Prop :=
  ∀ tail inside, tail <:+ text → ¬ BeginsPageTag inside tail

def FirstPageTag (inside text : Text) : Prop :=
  ∃ front tag, text = front ++ tag ∧ BeginsPageTag inside tag ∧
    ∀ first c second other, front = first ++ c :: second →
      ¬ BeginsPageTag other (c :: (second ++ tag))

theorem exists_behind_of_sameUpToCase {first : Text} {c : Char}
    (h : SameUpToCase (first ++ [c]) name)
    (before : Option Char) : ∃ d, behind before name = some d ∧ Text.sameUpToCase c d := by
  induction first generalizing name before with
  | nil =>
    obtain _ | ⟨hc, ⟨⟩⟩ := h
    exact ⟨_, rfl, hc⟩
  | cons d first ih =>
    obtain _ | ⟨-, hrest⟩ := h
    exact ih hrest _

theorem isWord_behind_pageTagName (h : SameUpToCase pageTagName name) (before : Option Char) :
    (behind before name).any Text.isWord = true := by
  have hsplit : pageTagName = "<apex:pag".toList ++ ['e'] := rfl
  obtain ⟨d, hbehind, hd⟩ := exists_behind_of_sameUpToCase (hsplit ▸ h) before
  have hascii : d.toNat < 128 := toNat_lt_of_sameUpToCase (by decide) (by decide) hd
  have hall : ∀ n : Fin 128, (Char.ofNat n).toLower = 'e' → Text.isWord (Char.ofNat n) := by
    decide +kernel
  have hword := hall ⟨d.toNat, hascii⟩
  simp only [Char.ofNat_toNat] at hword
  rw [hbehind]
  exact hword ((sameUpToCase_iff (by decide) hascii).mp hd)

theorem run_pageTag (h : SameUpToCase pageTagName name) :
    pageTag.run ⟨between before (name ++ rest), groups⟩ goOn =
      if rest.head?.any Text.isWord then none
      else (group () (star tagItem) ++ char '>').run ⟨between (behind before name) rest, groups⟩
        goOn := by
  have hpattern : pageTag = caseless pageTagName ++ wordEdge ++ group () (star tagItem) ++
    char '>' := rfl
  rw [hpattern, run_append, run_append, run_append, run_caseless_of_sameUpToCase h, run_wordEdge,
    isWord_behind_pageTagName h]
  cases rest.head?.any Text.isWord with
  | true => rfl
  | false => rfl

theorem matchAt_pageTag (h : BeginsPageTag inside text) (before : Option Char) :
    ∃ hit, pageTag.matchAt (between before text) = some hit ∧ hit.group () = inside := by
  obtain ⟨name, rest, rfl, hname, hinside, hedge⟩ := h
  have hhead : (inside ++ '>' :: rest).head?.any Text.isWord = false := by
    cases inside with
    | nil => rfl
    | cons c inside => exact hedge c rfl
  have hrun : pageTag.run ⟨between before (name ++ (inside ++ '>' :: rest)), []⟩ some =
      some ⟨between (some '>') rest,
        [((), (between (behind before name) (inside ++ '>' :: rest)).spanTo
        (between (behind (behind before name) inside) ('>' :: rest)))]⟩ := by
    rw [run_pageTag hname, hhead, if_neg Bool.false_ne_true, run_append, run_group]
    exact hinside.run_star (by simp [char])
  refine ⟨_, by rw [matchAt, hrun]; rfl, ?_⟩
  exact spanTo_text _ _ inside _

theorem beginsPageTag_of_matchAt {hit : Hit Unit}
    (h : pageTag.matchAt (between before text) = some hit) :
    BeginsPageTag (hit.group ()) text := by
  obtain ⟨name, rest, rfl, hname⟩ : ∃ name rest, text = name ++ rest ∧
    SameUpToCase pageTagName name := by
    obtain ⟨_, hlead, -⟩ := leads_append.mp (leads_of_matchAt h).2
    obtain ⟨_, hlead, -⟩ := leads_append.mp hlead
    obtain ⟨middle, hlead, -⟩ := leads_append.mp hlead
    obtain ⟨name, hrest, hname⟩ := hlead.caseless_inv
    exact ⟨name, middle.cursor.rest, hrest, hname⟩
  rw [matchAt, Option.map_eq_some_iff] at h
  obtain ⟨last, hrun, rfl⟩ := h
  rw [run_pageTag hname] at hrun
  split_ifs at hrun with hedge
  obtain ⟨_, hlead, ⟨⟩⟩ := exists_leads hrun
  obtain ⟨_, hgroup, hclose⟩ := leads_append.mp hlead
  obtain ⟨stop, hstar, rfl⟩ := leads_group.mp hgroup
  obtain ⟨inside, hsplit, hinside⟩ := isInside_of_leads hstar
  obtain ⟨hend, hgroups⟩ := hclose.char_inv
  rw [group_of_cons hgroups, Cursor.spanTo_text_of_rest hsplit]
  obtain rfl : rest = inside ++ '>' :: last.cursor.rest := by
    simp only [between_rest] at hsplit hend
    rw [hsplit, hend]
  refine ⟨name, last.cursor.rest, rfl, hname, hinside, fun c hc => ?_⟩
  rw [List.head?_append, Option.mem_def.mp hc] at hedge
  exact Bool.not_eq_true _ ▸ hedge

theorem search_pageTag_of_first (h : FirstPageTag inside text) :
    ∃ hit, pageTag.search text = some hit ∧ hit.group () = inside := by
  obtain ⟨front, tag, rfl, htag, hfirst⟩ := h
  obtain ⟨hit, hmatch, hgroup⟩ := matchAt_pageTag htag (behind none front)
  refine ⟨hit, searchFrom_of_quiet (quiet_of_forall fun first c second hfront => ?_) hmatch, hgroup⟩
  refine Option.eq_none_iff_forall_ne_some.mpr fun other hother => ?_
  exact hfirst first c second _ hfront (beginsPageTag_of_matchAt hother)

theorem search_pageTag_of_none (h : HasNoPageTag text) : pageTag.search text = none := by
  have hmatch : ∀ before tail, tail <:+ text → pageTag.matchAt (between before tail) = none := by
    intro before tail htail
    refine Option.eq_none_iff_forall_ne_some.mpr fun hit hhit => ?_
    exact h tail _ htail (beginsPageTag_of_matchAt hhit)
  refine search_of_quiet (quiet_of_forall fun front c more hsplit => ?_)
    (hmatch _ _ List.nil_suffix)
  rw [List.append_nil]
  exact hmatch _ _ ⟨front, hsplit.symm⟩

/-- The fields of a page that the attributes of a page tag or assignments to their names set. -/
structure Settings where
  controller : Option Text
  customController : Option Text
  extensions : List Text
deriving DecidableEq, Repr

/-- The settings of which the values are given by name. -/
def Settings.of (value? : String → Option Text) : Settings :=
  ⟨value? "standardController", value? "controller", ((value? "extensions").map extensionsOf).getD
    []⟩

def settings (page : Page) : Settings := ⟨page.controller, page.customController, page.extensions⟩

/-- The value of an attribute inside the page tag, if it is not empty. -/
def tagSetting? (inside : Text) (name : String) : Option Text :=
  present? ((attributesIn inside).get? name.toList)

/-- The first value assigned to a name anywhere in a text, if it is not empty. -/
def assigned? (text : Text) (name : String) : Option Text :=
  present? (((assignment name).search text).map (·.group ()))

theorem settings_readSettings (mode : Mode) (visible : Text) :
    (readSettings (Page.empty mode) visible).settings = Settings.of fun name =>
      ((pageTag.search visible).bind fun hit => tagSetting? (hit.group ()) name).or
        (assigned? visible name) := by
  rw [settings, readSettings, Settings.of]
  cases pageTag.search visible with
  | none =>
    refine congrArg (Settings.mk _ _) ?_
    change _ = ((setting? [] "extensions" visible).map extensionsOf).getD []
    cases setting? [] "extensions" visible <;> rfl
  | some hit =>
    refine congrArg (Settings.mk _ _) ?_
    change _ = ((setting? (attributesIn (hit.group ())) "extensions" visible).map extensionsOf).getD
      []
    cases setting? (attributesIn (hit.group ())) "extensions" visible <;> rfl

theorem settings_runStep {step : Step} (h : step ≠ .settings) (page : Page) :
    (runStep config text page step).settings = page.settings := by
  obtain ⟨panels, failures, hpanels⟩ := runStep_outputPanels config text
  cases step with
  | settings => exact absurd rfl h
  | outputPanels => rw [hpanels]; rfl
  | components | bindings | blocks | actionSupports | expressions => rfl

theorem settings_runSteps {steps : List Step} (h : .settings ∉ steps) (page : Page) :
    (runSteps config text steps page).settings = page.settings := by
  induction steps generalizing page with
  | nil => rfl
  | cons step steps ih =>
    have hne : step ≠ .settings := fun heq => h (heq ▸ List.mem_cons_self)
    exact (ih (List.not_mem_of_not_mem_cons h) _).trans (settings_runStep hne page)

/-- The first step of a recovery, full or light, reads the settings, and no later one changes
them. -/
theorem settings_recover (config : Config) (text : Text) :
    ∀ page ∈ [recover config text, recoverLight config text], page.settings =
      Settings.of fun name =>
      ((pageTag.search (visible config text)).bind fun hit => tagSetting? (hit.group ()) name).or
        (assigned? (visible config text) name) := by
  have hsteps : ∀ (mode : Mode) (steps : List Step), .settings ∉ steps →
      (runSteps config text (.settings :: steps) (Page.empty mode)).settings =
        Settings.of fun name =>
        ((pageTag.search (visible config text)).bind fun hit => tagSetting? (hit.group ()) name).or
          (assigned? (visible config text) name) :=
    fun mode steps hnot => (settings_runSteps hnot _).trans (settings_readSettings mode _)
  refine List.forall_mem_cons.mpr ⟨?_, List.forall_mem_singleton.mpr ?_⟩
  · exact hsteps .fallback _ (by decide)
  · exact hsteps .lightweight _ (by decide)

def IsDecided (inside text : Text) (name : String) : Prop :=
  tagSetting? inside name ≠ none ∨ assigned? text name = none

theorem IsDecided.or_eq {name : String} (h : IsDecided inside text name) :
    (tagSetting? inside name).or (assigned? text name) = tagSetting? inside name := by
  rcases h with hgiven | hnone
  · exact Option.or_of_isSome (Option.isSome_iff_ne_none.mpr hgiven)
  · rw [hnone, Option.or_none]

/-- The first intact page tag of what is visible decides each setting that it gives or that is
assigned nowhere, whatever else the text holds. Without an intact page tag the settings are what is
assigned. -/
theorem recover_settings (config : Config) (text : Text) :
    ∀ page ∈ [recover config text, recoverLight config text],
      (∀ inside, FirstPageTag inside (visible config text) →
        (IsDecided inside (visible config text) "standardController" →
          page.controller = tagSetting? inside "standardController") ∧
        (IsDecided inside (visible config text) "controller" →
          page.customController = tagSetting? inside "controller") ∧
        (IsDecided inside (visible config text) "extensions" →
          page.extensions = ((tagSetting? inside "extensions").map extensionsOf).getD [])) ∧
      (HasNoPageTag (visible config text) → page.settings =
        Settings.of (assigned? (visible config text))) := by
  intro page hpage
  have hsettings := settings_recover config text page hpage
  constructor
  · intro inside hfirst
    obtain ⟨hit, hsearch, rfl⟩ := search_pageTag_of_first hfirst
    rw [hsearch] at hsettings
    obtain ⟨hcontroller, hcustom, hextensions⟩ := Settings.mk.inj hsettings
    simp only [Option.bind_some] at hcontroller hcustom hextensions
    refine ⟨fun h => ?_, fun h => ?_, fun h => ?_⟩
    · rw [hcontroller, h.or_eq]
    · rw [hcustom, h.or_eq]
    · rw [hextensions, h.or_eq]
  · intro hnone
    rw [search_pageTag_of_none hnone] at hsettings
    exact hsettings

/-- A page tag with two attributes, and an element with an attribute of a longer name and one of the
same name. -/
def decidedText : Text :=
  "<apex:page controller=\"Main\" label='a > b'>".toList ++
    "<c:x myextensions=\"E\" controller=\"Foo\"/></apex:page>".toList

def decidedInside : Text := " controller=\"Main\" label='a > b'".toList

/-- A page tag without its end. -/
def brokenText : Text := "<apex:page standardController=\"Lead\"".toList

theorem isInside_decidedInside : IsInside decidedInside := by
  have hlabel : IsInside (" label=".toList ++ '\'' :: ("a > b".toList ++ ['\''])) :=
    .append (.of_all (by decide)) (.quoted (by decide) (by decide) .nil)
  have hvalue :
    IsInside ('"' ::
    ("Main".toList ++ '"' :: (" label=".toList ++ '\'' :: ("a > b".toList ++ ['\''])))) :=
    .quoted (by decide) (by decide) hlabel
  have hname : IsInside " controller=".toList := .of_all (by decide)
  exact hname.append hvalue

theorem firstPageTag_decidedText : FirstPageTag decidedInside decidedText := by
  have hname : SameUpToCase pageTagName pageTagName :=
    List.forall₂_same.mpr fun c _ => beq_self_eq_true _
  refine ⟨[], decidedText, rfl, ⟨pageTagName, _, rfl, hname, isInside_decidedInside, ?_⟩, by simp⟩
  rintro c ⟨⟩
  decide

theorem hasNoPageTag_brokenText : HasNoPageTag brokenText := by
  rintro tail inside htail ⟨name, rest, rfl, -⟩
  have hmem : '>' ∈ brokenText := htail.subset (by simp)
  exact absurd hmem (by decide)

theorem recover_decidedText : FirstPageTag decidedInside (visible Config.standard decidedText) ∧
    (∀ name ∈ ["standardController", "controller", "extensions"],
      IsDecided decidedInside (visible Config.standard decidedText) name) ∧
    HasNoPageTag (visible Config.standard brokenText) ∧
    (recover Config.standard decidedText).settings = ⟨none, some "Main".toList, []⟩ ∧
    (recoverLight Config.standard brokenText).settings = ⟨some "Lead".toList, none, []⟩ := by
  have hdecidedText : visible Config.standard decidedText = decidedText := by decide +kernel
  have hbrokenText : visible Config.standard brokenText = brokenText :=
    Text.of_characters (fun text => visible Config.standard text = text) (by decide +kernel)
  rw [hdecidedText, hbrokenText]
  have hgiven : tagSetting? decidedInside "controller" = some "Main".toList := by decide +kernel
  have hopen : ∀ name ∈ ["standardController", "extensions"],
      tagSetting? decidedInside name = none ∧ assigned? decidedText name = none := by
    decide +kernel
  have hdecided : ∀ name ∈ ["standardController", "controller", "extensions"],
      IsDecided decidedInside decidedText name := by
    intro name hname
    simp only [List.mem_cons, List.not_mem_nil, or_false] at hname
    rcases hname with rfl | rfl | rfl
    · exact .inr (hopen _ (by decide)).2
    · exact .inl (by rw [hgiven]; exact Option.some_ne_none _)
    · exact .inr (hopen _ (by decide)).2
  refine ⟨firstPageTag_decidedText, hdecided, hasNoPageTag_brokenText, ?_, ?_⟩
  · have hpage :=
      (recover_settings Config.standard decidedText (recover Config.standard decidedText)
      (by simp)).1
    rw [hdecidedText] at hpage
    obtain ⟨hcontroller, hcustom, hextensions⟩ := hpage decidedInside firstPageTag_decidedText
    rw [settings, hcontroller (hdecided _ (by decide)), hcustom (hdecided _ (by decide)),
      hextensions (hdecided _ (by decide)), hgiven, (hopen _ (by decide)).1,
      (hopen _ (by decide)).1]
    rfl
  · have hpage :=
      (recover_settings Config.standard brokenText (recoverLight Config.standard brokenText)
      (by simp)).2
    rw [hbrokenText] at hpage
    rw [hpage hasNoPageTag_brokenText]
    exact Text.of_characters (fun text => Settings.of (assigned? text) =
      ⟨some "Lead".toList, none, []⟩)
      (by decide +kernel)

/-- An intact page tag without attributes, and an element with one. -/
def strayText : Text := "<apex:page><c:x controller=\"Foo\"/></apex:page>".toList

/-- The attribute of another element becomes the controller of the page, though the page tag is
intact. -/
theorem recover_strayText : FirstPageTag [] (visible Config.standard strayText) ∧ attributesIn [] =
    [] ∧
    ∀ page ∈ [recover Config.standard strayText, recoverLight Config.standard strayText],
      page.customController = some "Foo".toList := by
  have hvisible : visible Config.standard strayText = strayText :=
    Text.of_characters (fun text => visible Config.standard text = text) (by decide +kernel)
  have hname : SameUpToCase pageTagName pageTagName :=
    List.forall₂_same.mpr fun c _ => beq_self_eq_true _
  rw [hvisible]
  exact ⟨⟨[], strayText, rfl, ⟨pageTagName, _, rfl, hname, .nil, by simp⟩, by simp⟩, rfl, by
    decide +kernel⟩

end Visualforce.Page
