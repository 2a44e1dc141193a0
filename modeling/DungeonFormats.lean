import DungeonFormats.Text.Hex
import DungeonFormats.Text.Printable
import DungeonFormats.Text.GraphemeExtend
import DungeonFormats.Text.Utf8
import DungeonFormats.Text.Quoted
import DungeonFormats.Bytes.Word
import DungeonFormats.Bytes.Cursor
import DungeonFormats.Bytes.Builder
import DungeonFormats.Bytes.Panic
import DungeonFormats.Release
import DungeonFormats.Script.Catalog
import DungeonFormats.Script.Param
import DungeonFormats.Script.Basic
import DungeonFormats.Script.DecodeError
import DungeonFormats.Script.Code
import DungeonFormats.Script.Grouping
import DungeonFormats.Script.EncodeError
import DungeonFormats.Script.Header
import DungeonFormats.Script.StringTable
import DungeonFormats.Script.Decode
import DungeonFormats.Script.Encode
import DungeonFormats.Tileset
import DungeonFormats.Sound.Chunk
import DungeonFormats.Sound.Units
import DungeonFormats.Sound.TrackEvent
import DungeonFormats.Sound.Timestamp
import DungeonFormats.Sound.Sample
import DungeonFormats.Sound.Song
import DungeonFormats.Sound.Meta
import DungeonFormats.Proofs.Word
import DungeonFormats.Proofs.Builder
import DungeonFormats.Proofs.ChunkScan
import DungeonFormats.Proofs.Pieces
import DungeonFormats.Proofs.ScriptImage
import DungeonFormats.Proofs.ScriptEncode
import DungeonFormats.Proofs.ScriptLayout
import DungeonFormats.Proofs.ScriptWrite
import DungeonFormats.Proofs.CodeRead
import DungeonFormats.Proofs.Grouping
import DungeonFormats.Proofs.Tileset
import DungeonFormats.Proofs.PanicFreedom
import DungeonFormats.Proofs.Labels
import DungeonFormats.Proofs.Rereading
import DungeonFormats.Proofs.Boundaries
import DungeonFormats.Proofs.Rewriting
import DungeonFormats.Proofs.Arranged
import DungeonFormats.Proofs.LabelNumbering
import DungeonFormats.Proofs.GroupOrder
import DungeonFormats.Proofs.Folding
import DungeonFormats.Proofs.LabelPlacement
import DungeonFormats.Proofs.StringTables
import DungeonFormats.Proofs.LabelRenaming
import DungeonFormats.Proofs.CodeStops
import DungeonFormats.Proofs.WriteRefusals
import DungeonFormats.Proofs.SongChunk
import DungeonFormats.Proofs.CodePositions
import DungeonFormats.Proofs.WrittenOffsets
