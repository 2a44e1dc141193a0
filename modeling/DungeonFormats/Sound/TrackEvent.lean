/-!
# Track events

A track is a stream of event codes. Codes `0x01` to `0x7F` play a note at that velocity, codes
`0x80` to `0x8F` wait by the delta time indexed by their low four bits, fifteen further codes
have names, and every other code is unknown.
-/

namespace DungeonFormats.Sound

/-- An event code with a name. -/
inductive NamedEvent where
  | repeatSilence
  | silence
  | longSilence
  | endOfTrack
  | loopPointSet
  | setOctave
  | setTempo
  | setUnk1
  | setUnk2
  | setPreset
  | modulate
  | setUnk3
  | setTrkVol
  | setExpress
  | setTrkPan
  deriving DecidableEq, Repr

namespace NamedEvent

/-- Every named event. -/
def all : List NamedEvent :=
  [repeatSilence, silence, longSilence, endOfTrack, loopPointSet, setOctave, setTempo, setUnk1,
    setUnk2, setPreset, modulate, setUnk3, setTrkVol, setExpress, setTrkPan]

/-- The event's code. -/
def code : NamedEvent → UInt8
  | repeatSilence => 0x90
  | silence => 0x92
  | longSilence => 0x93
  | endOfTrack => 0x98
  | loopPointSet => 0x99
  | setOctave => 0xA0
  | setTempo => 0xA4
  | setUnk1 => 0xA9
  | setUnk2 => 0xAA
  | setPreset => 0xAC
  | modulate => 0xD7
  | setUnk3 => 0xDB
  | setTrkVol => 0xE0
  | setExpress => 0xE3
  | setTrkPan => 0xE8

/-- The event's name. -/
def name : NamedEvent → String
  | repeatSilence => "RepeatSilence"
  | silence => "Silence"
  | longSilence => "LongSilence"
  | endOfTrack => "EndOfTrack"
  | loopPointSet => "LoopPointSet"
  | setOctave => "SetOctave"
  | setTempo => "SetTempo"
  | setUnk1 => "SetUnk1"
  | setUnk2 => "SetUnk2"
  | setPreset => "SetPreset"
  | modulate => "Modulate"
  | setUnk3 => "SetUnk3"
  | setTrkVol => "SetTrkVol"
  | setExpress => "SetExpress"
  | setTrkPan => "SetTrkPan"

end NamedEvent

/-- What an event code means. -/
inductive TrackEvent where
  /-- Play a note at this velocity. -/
  | noteOn (velocity : UInt8)
  /-- Wait by the delta time of this index. -/
  | deltaTime (index : UInt8)
  | named (e : NamedEvent)
  | unknown (code : UInt8)
  deriving DecidableEq, Repr

/-- The meaning of an event code. -/
def TrackEvent.classify (code : UInt8) : TrackEvent :=
  if 0x01 ≤ code ∧ code ≤ 0x7F then .noteOn code
  else if 0x80 ≤ code ∧ code ≤ 0x8F then .deltaTime (code % 16)
  else
    match NamedEvent.all.find? (·.code == code) with
    | some e => .named e
    | none => .unknown code

end DungeonFormats.Sound
