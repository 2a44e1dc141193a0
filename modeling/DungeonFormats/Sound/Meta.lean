import DungeonFormats.Sound.Timestamp

/-!
# Sound file headers

What a sound file's header keeps beyond its chunks: two bytes of unknown use, the internal file
name, the time stamp, and what depends on the kind of file, the ticks per quarter note of a
music sequence or the two slot counts of a sample bank.
-/

namespace DungeonFormats.Sound

/-- The part of a header that depends on the kind of file. -/
inductive MetaKind where
  /-- A music sequence and its ticks per quarter note. -/
  | musicSeq (tpqn : UInt16)
  /-- A sample bank and its numbers of sample and program slots. -/
  | bank (waviSlots prgiSlots : UInt16)
  deriving DecidableEq, Repr

/-- What a sound file's header keeps. -/
structure SoundMeta where
  unk1 : UInt8
  unk2 : UInt8
  fname : List UInt8
  created : Timestamp
  kind : MetaKind
  deriving DecidableEq, Repr

namespace SoundMeta

/-- The ticks per quarter note of a music sequence. -/
def tpqn (m : SoundMeta) : Option UInt16 :=
  match m.kind with
  | .musicSeq t => some t
  | .bank _ _ => none

/-- The slot counts of a sample bank. -/
def slots (m : SoundMeta) : Option (UInt16 × UInt16) :=
  match m.kind with
  | .bank w p => some (w, p)
  | .musicSeq _ => none

end SoundMeta

end DungeonFormats.Sound
