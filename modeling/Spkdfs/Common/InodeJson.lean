import Spkdfs.Common.Inode
import Spkdfs.Lib.Json

/-!
# Storage types and inodes as JSON

`to_json` and `from_json` of `common/inode.cpp`.  The storage type of an inode is a JSON text of
its own, inside of a string.

nlohmann::json is outside of the repository.  `JsonLibrary` has its two functions, and
`JsonLibrary.Lawful` is what the code relies on.  `StorageType.fromJson_toJson` and
`Inode.fromJson_toJson` say that both come back from their members.
-/

namespace Spkdfs

open Json

/-- `json::dump` and `json::parse`. -/
structure JsonLibrary where
  dump : Value → String
  parse : String → Except Exception Value

/-- What the code relies on: a value is read back from its text. -/
structure JsonLibrary.Lawful (json : JsonLibrary) : Prop where
  parse_dump : ∀ v : Value, v.Valid → json.parse (json.dump v) = .ok v

/-! ## The members of an object -/

/-- `json::at`. -/
def jsonAt (k : String) (j : Value) : Except Exception Value :=
  match j.find k with
  | none => .error (.runtime "json.exception.out_of_range.403")
  | some v => .ok v

/-- The exception of a `get` for another type. -/
def typeError : Exception := .runtime "json.exception.type_error.302"

/-- `get<string>`. -/
def getString : Value → Except Exception String
  | .string s => .ok s
  | _ => .error typeError

/-- `get<bool>`. -/
def getBool : Value → Except Exception Bool
  | .bool b => .ok b
  | _ => .error typeError

/-- `get<int>`, which converts any number and a truth value. -/
def getInt : Value → Except Exception Int
  | .number n => .ok (n.bmod (2 ^ 32))
  | .bool b => .ok (if b then 1 else 0)
  | _ => .error typeError

/-- `get<uint64_t>`. -/
def getUInt64 : Value → Except Exception UInt64
  | .number n => .ok (.ofInt n)
  | _ => .error typeError

/-- `get<vector<string>>`. -/
def getStrings : Value → Except Exception (List String)
  | .array items => items.mapM getString
  | _ => .error typeError

/-! ## Storage types and inodes -/

/-- `RSStorageType::to_json` and `REStorageType::to_json`. -/
def StorageType.toJson : StorageType → Value
  | .rs k m b =>
    .ofMembers [("type", .string "RS"), ("k", .number k), ("m", .number m), ("b", .number b)]
  | .re replications b =>
    .ofMembers [("type", .string "RE"), ("replications", .number replications), ("b", .number b)]

/-- `from_json` of a storage type. -/
def StorageType.fromJson (j : Value) : Except Exception StorageType := do
  let type ← jsonAt "type" j >>= getString
  if type = "RS" then
    let k ← jsonAt "k" j >>= getInt
    let m ← jsonAt "m" j >>= getInt
    let b ← jsonAt "b" j >>= getInt
    return .rs k m b
  else if type = "RE" then
    let replications ← jsonAt "replications" j >>= getInt
    let b ← jsonAt "b" j >>= getInt
    return .re replications b
  else .error (.runtime "Unknown StorageType")

variable (json : JsonLibrary)

/-- The members that `to_json` gives an inode. -/
def Inode.members (inode : Inode) : List (String × Value) :=
  [("fullpath", .string inode.fullpath.text), ("is_directory", .bool inode.isDirectory),
    ("filesize", .number inode.filesize.toNat), ("sub", .array (inode.sub.map .string)),
    ("valid", .bool inode.valid), ("ddl_lock", .number inode.ddlLock.toNat)] ++
      match inode.storageType with
      | none => []
      | some t => [("storage_type", .string (json.dump t.toJson))]

/-- `to_json` of an inode. -/
def Inode.toJson (inode : Inode) : Value := .ofMembers (inode.members json)

/-- `Inode::value`. -/
def Inode.value (inode : Inode) : String := json.dump (inode.toJson json)

/-- The part of `from_json` that reads the storage type. -/
def readStorageType (j : Value) : Except Exception (Option StorageType) :=
  match j.find "storage_type" with
  | none => .ok none
  | some v => do
    let storageTypeJson ← getString v >>= json.parse
    let t ← StorageType.fromJson storageTypeJson
    return some t

/-- `from_json` of an inode. -/
def Inode.fromJson (j : Value) : Except Exception Inode := do
  let fullpath ← jsonAt "fullpath" j >>= getString
  let isDirectory ← jsonAt "is_directory" j >>= getBool
  let filesize ← jsonAt "filesize" j >>= getUInt64
  let storageType ← readStorageType json j
  let sub ← jsonAt "sub" j >>= getStrings
  let valid ← jsonAt "valid" j >>= getBool
  let ddlLock ← jsonAt "ddl_lock" j >>= getUInt64
  return ⟨.set fullpath, isDirectory, filesize, storageType, sub, valid, ddlLock⟩

/-! ## The round trip -/

variable {json}

theorem jsonAt_ofMembers {members : List (String × Value)} {k : String} {v : Value}
    (hkeys : (members.map Prod.fst).Nodup) (h : (k, v) ∈ members) :
    jsonAt k (.ofMembers members) = .ok v := by
  rw [jsonAt, Value.find_ofMembers hkeys h]

/-- The fields are values of an `int`. -/
def StorageType.AreInts : StorageType → Prop
  | .rs k m b => IsInt k ∧ IsInt m ∧ IsInt b
  | .re replications b => IsInt replications ∧ IsInt b

theorem getInt_number {n : Int} (h : IsInt n) : getInt (.number n) = .ok n := by
  rw [getInt, bmod_of_isInt h]

theorem valid_number {n : Int} (h : IsInt n) : (Value.number n).Valid := by
  unfold IsInt at h
  exact .number (by omega) (by omega)

theorem StorageType.valid_toJson {t : StorageType} (ht : t.AreInts) : t.toJson.Valid := by
  cases t with
  | rs k m b =>
    refine Value.valid_ofMembers (show ["type", "k", "m", "b"].Nodup by decide) ?_
    simp only [List.mem_cons, List.not_mem_nil, or_false]
    rintro p (rfl | rfl | rfl | rfl)
    · exact .string _
    · exact valid_number ht.1
    · exact valid_number ht.2.1
    · exact valid_number ht.2.2
  | re replications b =>
    refine Value.valid_ofMembers (show ["type", "replications", "b"].Nodup by decide) ?_
    simp only [List.mem_cons, List.not_mem_nil, or_false]
    rintro p (rfl | rfl | rfl)
    · exact .string _
    · exact valid_number ht.1
    · exact valid_number ht.2

/-- A storage type is read back from its members. -/
theorem StorageType.fromJson_toJson {t : StorageType} (ht : t.AreInts) :
    fromJson t.toJson = .ok t := by
  cases t with
  | rs k m b =>
    have hat : ∀ key v, (key, v) ∈ [("type", Value.string "RS"), ("k", .number k),
        ("m", .number m), ("b", .number b)] →
        jsonAt key (toJson (.rs k m b)) = .ok v := fun _ _ h =>
      jsonAt_ofMembers (show ["type", "k", "m", "b"].Nodup by decide) h
    rw [fromJson, hat "type" (.string "RS") (by simp), hat "k" (.number k) (by simp),
      hat "m" (.number m) (by simp), hat "b" (.number b) (by simp)]
    simp only [bind, Except.bind, getString, getInt_number ht.1, getInt_number ht.2.1,
      getInt_number ht.2.2]
    rfl
  | re replications b =>
    have hat : ∀ key v, (key, v) ∈ [("type", Value.string "RE"),
        ("replications", .number replications), ("b", .number b)] →
        jsonAt key (toJson (.re replications b)) = .ok v := fun _ _ h =>
      jsonAt_ofMembers (show ["type", "replications", "b"].Nodup by decide) h
    rw [fromJson, hat "type" (.string "RE") (by simp),
      hat "replications" (.number replications) (by simp), hat "b" (.number b) (by simp)]
    simp only [bind, Except.bind, getString, getInt_number ht.1, getInt_number ht.2]
    rfl

theorem Inode.nodup_members (inode : Inode) : ((inode.members json).map Prod.fst).Nodup := by
  unfold Inode.members
  cases inode.storageType with
  | none =>
    exact show ["fullpath", "is_directory", "filesize", "sub", "valid", "ddl_lock"].Nodup by decide
  | some t =>
    exact show ["fullpath", "is_directory", "filesize", "sub", "valid", "ddl_lock",
      "storage_type"].Nodup by decide

theorem valid_uint64 (n : UInt64) : (Value.number n.toNat).Valid := by
  have hlt := n.toNat_lt
  exact .number (by omega) (by omega)

theorem Inode.valid_toJson (inode : Inode) : (inode.toJson json).Valid := by
  refine Value.valid_ofMembers inode.nodup_members fun p hp => ?_
  rcases List.mem_append.mp hp with hp | hp
  · simp only [List.mem_cons, List.not_mem_nil, or_false] at hp
    rcases hp with rfl | rfl | rfl | rfl | rfl | rfl
    · exact .string _
    · exact .bool _
    · exact valid_uint64 _
    · refine .array fun v hv => ?_
      obtain ⟨s, _, rfl⟩ := List.mem_map.mp hv
      exact .string s
    · exact .bool _
    · exact valid_uint64 _
  · cases htype : inode.storageType with
    | none =>
      rw [htype] at hp
      cases hp
    | some t =>
      rw [htype] at hp
      rw [List.mem_singleton.mp hp]
      exact .string _

theorem getStrings_array (sub : List String) : getStrings (.array (sub.map .string)) = .ok sub := by
  rw [getStrings]
  induction sub with
  | nil => rfl
  | cons s sub ih =>
    rw [List.map_cons, List.mapM_cons, ih]
    rfl

theorem getUInt64_number (n : UInt64) : getUInt64 (.number n.toNat) = .ok n := by
  have hlt := n.toNat_lt
  have hvalue : UInt64.ofInt n.toNat = n := by
    rw [← UInt64.toNat_inj, UInt64.ofInt, UInt64.toNat_ofNat']
    omega
  rw [getUInt64, hvalue]

/-- The storage type is read back from the text inside of the string. -/
theorem readStorageType_toJson (hjson : json.Lawful) {inode : Inode}
    (htype : ∀ t, inode.storageType = some t → t.AreInts) :
    readStorageType json (inode.toJson json) = .ok inode.storageType := by
  rw [readStorageType]
  cases ht : inode.storageType with
  | none =>
    have hnone : (inode.toJson json).find "storage_type" = none := by
      refine Value.find_ofMembers_eq_none ?_
      rw [Inode.members, ht]
      exact show "storage_type" ∉ ["fullpath", "is_directory", "filesize", "sub", "valid",
        "ddl_lock"] by decide
    rw [hnone]
  | some t =>
    have hsome : (inode.toJson json).find "storage_type" = some (.string (json.dump t.toJson)) := by
      refine Value.find_ofMembers inode.nodup_members ?_
      rw [Inode.members, ht]
      exact List.mem_append_right _ List.mem_cons_self
    have hints := htype t ht
    rw [hsome]
    simp only [getString, bind, Except.bind, hjson.parse_dump _ (StorageType.valid_toJson hints),
      StorageType.fromJson_toJson hints]
    rfl

/-- An inode is read back from its members. -/
theorem Inode.fromJson_toJson (hjson : json.Lawful) {inode : Inode}
    (htype : ∀ t, inode.storageType = some t → t.AreInts) :
    Inode.fromJson json (inode.toJson json) = .ok inode := by
  have hat : ∀ key v, (key, v) ∈ [("fullpath", Value.string inode.fullpath.text),
      ("is_directory", .bool inode.isDirectory), ("filesize", .number inode.filesize.toNat),
      ("sub", .array (inode.sub.map .string)), ("valid", .bool inode.valid),
      ("ddl_lock", .number inode.ddlLock.toNat)] →
      jsonAt key (inode.toJson json) = .ok v := fun _ _ h =>
    jsonAt_ofMembers inode.nodup_members (List.mem_append_left _ h)
  have hpath : FullPath.set inode.fullpath.text = inode.fullpath :=
    FullPath.ext_text inode.fullpath.canonical
  rw [Inode.fromJson, hat "fullpath" (.string inode.fullpath.text) (by simp),
    hat "is_directory" (.bool inode.isDirectory) (by simp),
    hat "filesize" (.number inode.filesize.toNat) (by simp),
    hat "sub" (.array (inode.sub.map .string)) (by simp), hat "valid" (.bool inode.valid) (by simp),
    hat "ddl_lock" (.number inode.ddlLock.toNat) (by simp)]
  simp only [bind, Except.bind, getString, getBool, getUInt64_number, getStrings_array,
    readStorageType_toJson hjson htype, hpath]
  rfl

/-! ## A library -/

/-- The functions of `Json` with the exception of a text that is no value. -/
def jsonTexts : JsonLibrary where
  dump := Json.dump
  parse := fun text =>
    match Json.parse text with
    | none => .error (.runtime "json.exception.parse_error.101")
    | some v => .ok v

theorem jsonTexts_lawful : jsonTexts.Lawful := by
  refine ⟨fun v _ => ?_⟩
  show (match Json.parse (Json.dump v) with
    | none => _
    | some v => _) = _
  rw [Json.parse_dump]

example : jsonTexts.dump (StorageType.toJson (.rs 7 5 16)) =
    "\x7b\x22b\x22:16,\x22k\x22:7,\x22m\x22:5,\x22type\x22:\x22RS\x22\x7d" := by
  decide

end Spkdfs
