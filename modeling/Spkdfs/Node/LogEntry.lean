import Spkdfs.Common.Blocks
import Spkdfs.Common.InodeJson
import Spkdfs.Node.RaftNN

/-!
# The bytes of a log entry

A handler of the namenode proposes one byte for the type of the operation and behind it
`Inode::value()`, the JSON text of an inode.  `on_apply` of `node/raft_nn.cpp` reads both back.
`readEntry_entryData` says that an entry comes back as it was proposed.
-/

namespace Spkdfs

variable (json : JsonLibrary)

/-! ## The entry -/

/-- The value of an enumerator. -/
def OpType.toByte : OpType → UInt8
  | .opMkdir => 0
  | .opPut => 1
  | .opPutok => 2
  | .opRm => 3
  | .opUnknown => 4

/-- The enumerator of a value. -/
def OpType.ofValue (n : ℕ) : Option OpType :=
  [OpType.opMkdir, .opPut, .opPutok, .opRm, .opUnknown][n]?

/-- The bytes of a text. -/
def textBytes (s : String) : Bytes := s.toUTF8.data.toList

/-- The text of some bytes, if they are one. -/
def bytesText (data : Bytes) : Option String := String.fromUTF8? ⟨data.toArray⟩

/-- The data that a handler proposes. -/
def entryData (type : OpType) (inode : Inode) : Bytes :=
  type.toByte :: textBytes (inode.value json)

/-- `cutn` of one byte into a variable of type `OpType` that is `OP_UNKNOWN`: the byte replaces
the lowest byte of the variable. -/
def cutType : Bytes → ℕ × Bytes
  | [] => (OpType.opUnknown.toByte.toNat, [])
  | byte :: data => (OpType.opUnknown.toByte.toNat / 256 * 256 + byte.toNat, data)

/-- The part of `RaftNN::on_apply` that reads an entry.  A type that is no enumerator matches no
case of the `switch`. -/
def readEntry (data : Bytes) : Except Exception (Option OpType × Inode) := do
  let (type, data) := cutType data
  match bytesText data with
  | none => .error (.runtime "json.exception.parse_error.101")
  | some strInode =>
    let j ← json.parse strInode
    let inode ← Inode.fromJson json j
    return (OpType.ofValue type, inode)

/-! ## The round trip -/

variable {json}

theorem bytesText_textBytes (s : String) : bytesText (textBytes s) = some s := by
  have hbytes : (⟨(textBytes s).toArray⟩ : ByteArray) = s.toUTF8 := by
    rw [textBytes, Array.toArray_toList]
  have hvalid : ByteArray.IsValidUTF8 s.toUTF8 := s.isValidUTF8
  rw [bytesText, hbytes, String.fromUTF8?, dif_pos hvalid]
  rfl

theorem cutType_cons (type : OpType) (data : Bytes) :
    cutType (type.toByte :: data) = (type.toByte.toNat, data) := by
  cases type <;> rfl

theorem ofValue_toByte (type : OpType) : OpType.ofValue type.toByte.toNat = some type := by
  cases type <;> rfl

/-- An entry that was proposed is read as it was proposed, and its text is the same again. -/
theorem readEntry_entryData (hjson : json.Lawful) (type : OpType) (inode : Inode)
    (htype : ∀ t, inode.storageType = some t → t.AreInts) :
    ∃ inode', readEntry json (entryData json type inode) = .ok (some type, inode') ∧
      inode' = inode ∧ inode'.value json = inode.value json := by
  refine ⟨inode, ?_, rfl, rfl⟩
  have hparse : json.parse (inode.value json) = .ok (inode.toJson json) :=
    hjson.parse_dump _ inode.valid_toJson
  rw [readEntry, entryData, cutType_cons]
  simp only [bytesText_textBytes, hparse, bind, Except.bind, Inode.fromJson_toJson hjson htype,
    ofValue_toByte]
  rfl

/-- A file with a location that has a quote in it. -/
def quotedInode : Inode :=
  { Inode.new (.set "/a//b/../f") with
    filesize := 18446744073709551615, storageType := some (.rs 7 5 16), sub := ["\x22\n", ""] }

theorem readEntry_quotedInode :
    (∀ t, quotedInode.storageType = some t → t.AreInts) ∧
      ∃ inode', readEntry jsonTexts (entryData jsonTexts .opPutok quotedInode) =
          .ok (some .opPutok, inode') ∧
        inode' = quotedInode ∧ inode'.value jsonTexts = quotedInode.value jsonTexts := by
  have htype : ∀ t, quotedInode.storageType = some t → t.AreInts := by
    rintro _ ⟨rfl⟩
    refine ⟨?_, ?_, ?_⟩ <;> (unfold IsInt; omega)
  exact ⟨htype, readEntry_entryData jsonTexts_lawful .opPutok quotedInode htype⟩

end Spkdfs
