/-!
# Releases: regions, game versions and languages

A release is sold in a region and is one of three games. The region fixes which languages a
script carries text for, in file order; the game fixes which of two opcode sets its scripts
use. `PerLanguage` holds at most one value per language, and lists them in the languages'
order.
-/

namespace DungeonFormats

/-- The territory a release is sold in. -/
inductive Region where
  | northAmerica
  | europe
  | japan
  deriving DecidableEq, Repr

/-- One of the three games. -/
inductive GameVersion where
  /-- Explorers of Sky. -/
  | sky
  /-- Explorers of Time. -/
  | time
  /-- Explorers of Darkness. -/
  | darkness
  deriving DecidableEq, Repr

/-- The opcode set a game's scripts are written in: one for Sky, one shared by Time and
Darkness. -/
inductive OpcodeVersion where
  | sky
  | timeDarkness
  deriving DecidableEq, Repr

/-- A language of script text. -/
inductive Language where
  | english
  | french
  | german
  | italian
  | spanish
  | japanese
  deriving DecidableEq, Repr

namespace Language

/-- Every language, in their fixed order. -/
def all : List Language :=
  [english, french, german, italian, spanish, japanese]

/-- The language's name. -/
def name : Language → String
  | english => "English"
  | french => "French"
  | german => "German"
  | italian => "Italian"
  | spanish => "Spanish"
  | japanese => "Japanese"

end Language

/-- The languages a region's scripts carry text for, in file order. -/
def Region.languages : Region → List Language
  | .northAmerica => [.english]
  | .europe => [.english, .french, .german, .italian, .spanish]
  | .japan => [.japanese]

/-- The region's name. -/
def Region.name : Region → String
  | .northAmerica => "NorthAmerica"
  | .europe => "Europe"
  | .japan => "Japan"

/-- The opcode set the game's scripts use. -/
def GameVersion.opcodeVersion : GameVersion → OpcodeVersion
  | .sky => .sky
  | .time => .timeDarkness
  | .darkness => .timeDarkness

/-- The game's short name. -/
def GameVersion.name : GameVersion → String
  | .sky => "EoS"
  | .time => "EoT"
  | .darkness => "EoD"

/-- The opcode set's short name. -/
def OpcodeVersion.name : OpcodeVersion → String
  | .sky => "EoS"
  | .timeDarkness => "EoTD"

/-- At most one value for each language. -/
structure PerLanguage (α : Type) where
  english : Option α
  french : Option α
  german : Option α
  italian : Option α
  spanish : Option α
  japanese : Option α
  deriving DecidableEq, Repr

namespace PerLanguage

variable {α : Type}

/-- No value for any language. -/
def empty : PerLanguage α :=
  ⟨none, none, none, none, none, none⟩

/-- The value for a language. -/
def get (t : PerLanguage α) : Language → Option α
  | .english => t.english
  | .french => t.french
  | .german => t.german
  | .italian => t.italian
  | .spanish => t.spanish
  | .japanese => t.japanese

/-- Sets the value for a language, replacing any earlier one. -/
def set (t : PerLanguage α) (l : Language) (v : α) : PerLanguage α :=
  match l with
  | .english => { t with english := some v }
  | .french => { t with french := some v }
  | .german => { t with german := some v }
  | .italian => { t with italian := some v }
  | .spanish => { t with spanish := some v }
  | .japanese => { t with japanese := some v }

/-- The languages with a value, in the languages' order. -/
def keys (t : PerLanguage α) : List Language :=
  Language.all.filter fun l => (t.get l).isSome

/-- The languages with their values, in the languages' order. -/
def toList (t : PerLanguage α) : List (Language × α) :=
  Language.all.filterMap fun l => (t.get l).map (l, ·)

/-- A value for each language of `ps`, a later pair for the same language replacing an
earlier one. -/
def ofList (ps : List (Language × α)) : PerLanguage α :=
  ps.foldl (fun t p => t.set p.1 p.2) empty

@[simp] theorem get_set_self (t : PerLanguage α) (l : Language) (v : α) :
    (t.set l v).get l = some v := by
  cases l <;> rfl

theorem get_set_of_ne (t : PerLanguage α) {l l' : Language} (v : α) (h : l' ≠ l) :
    (t.set l v).get l' = t.get l' := by
  cases l <;> cases l' <;> simp_all [set, get]

end PerLanguage

end DungeonFormats
