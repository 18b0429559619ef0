import Spkdfs.Client.Session

/-!
# Exact arithmetic

`get_indexs`, `read_data`, `write_data` and `fsync` take offsets and sizes of 64 bits through
parameters, products and variables of type `int`.  `Exact` has the same calls without any
conversion, for a block size that is positive.

`exact_iff` says when the conversions change nothing: below 2 GiB, and nowhere else.
`run_readData_exact`, `run_writeData_exact` and `run_fsync_exact` say the same of the calls.
-/

namespace Spkdfs

open Effects

/-- `Inode::get_block_size`, where it is positive. -/
def Inode.blockSize (inode : Inode) : ℕ := inode.getBlockSize.toNat

theorem Inode.coe_blockSize {inode : Inode} (h : 0 < inode.getBlockSize) :
    (inode.blockSize : Int) = inode.getBlockSize := Int.toNat_of_nonneg h.le

theorem Inode.blockSize_pos {inode : Inode} (h : 0 < inode.getBlockSize) : 0 < inode.blockSize := by
  have := coe_blockSize h
  omega

/-- A block size is an `int`. -/
theorem Inode.blockSize_lt (inode : Inode) : inode.blockSize < 2 ^ 31 := by
  have hlt : inode.getBlockSize < 2 ^ 31 := by
    unfold Inode.getBlockSize
    split
    · decide
    · rw [StorageType.getBlockSize, Int.bmod]
      omega
  unfold Inode.blockSize
  omega

theorem toInt32_of_lt {n : ℕ} (h : n < 2 ^ 31) : toInt32 n = n := by
  rw [toInt32, Int.bmod]
  omega

/-- Any other number becomes a much smaller one. -/
theorem toInt32_add_le {n : ℕ} (h : 2 ^ 31 ≤ n) : toInt32 n + 2 ^ 32 ≤ n := by
  rw [toInt32, Int.bmod]
  omega

theorem le_toInt32 (n : Int) : -2 ^ 31 ≤ toInt32 n := by
  rw [toInt32, Int.bmod]
  omega

namespace SDK

namespace Exact

/-- `SDK::get_indexs`. -/
def getIndexs (bs offset size : ℕ) : ℕ × ℕ := (offset / bs, (offset + size) / bs + 1)

/-- The size that `fsync` asks for. -/
def fsyncSize (inode : Inode) (last lastSize : ℕ) : ℕ :=
  max inode.filesize.toNat (last * inode.blockSize + lastSize)

end Exact

/-! ## Where the conversions change nothing -/

variable {inode : Inode}

/-- The quotient of a converted number is the right one for small numbers only. -/
theorem tdiv_toInt32_iff {n bs : ℕ} (hpos : 0 < bs) (hbs : bs < 2 ^ 31) :
    (toInt32 n).tdiv bs = (n / bs : ℕ) ↔ n < 2 ^ 31 := by
  constructor
  · intro h
    by_contra hbig
    have hle := toInt32_add_le (Nat.not_lt.mp hbig)
    rcases Int.lt_or_le (toInt32 n) 0 with hneg | hnonneg
    · have hquot : 0 ≤ (-toInt32 n).tdiv bs := Int.tdiv_nonneg (by omega) (by omega)
      rw [Int.neg_tdiv] at hquot
      have hone : 1 ≤ n / bs := (Nat.one_le_div_iff hpos).mpr (by omega)
      omega
    · obtain ⟨m, hm⟩ := Int.eq_ofNat_of_zero_le hnonneg
      rw [hm] at h hle
      have hdiv : m / bs = n / bs := by
        rw [← Int.ofNat_tdiv] at h
        exact Int.ofNat.inj h
      have hstep : m / bs + 1 ≤ n / bs := by
        rw [← Nat.add_div_right m hpos]
        exact Nat.div_le_div_right (by omega)
      omega
  · intro hlt
    rw [toInt32_of_lt hlt]
    exact Int.ofNat_tdiv n bs

/-- The indices of a window, and the place of its first block, are those of exact
arithmetic. -/
structure ExactWindow (inode : Inode) (offset size : UInt64) : Prop where
  indexs : getIndexs inode offset size = .ok
    (((Exact.getIndexs inode.blockSize offset.toNat size.toNat).1 : Int),
      ((Exact.getIndexs inode.blockSize offset.toNat size.toNat).2 : Int))
  base : ∀ indexs, getIndexs inode offset size = .ok indexs →
    toInt32 (indexs.1 * inode.getBlockSize) =
      ((Exact.getIndexs inode.blockSize offset.toNat size.toNat).1 * inode.blockSize : ℕ)
  /-- The bounds of the slice that `read_data` answers. -/
  slice : ∀ indexs, getIndexs inode offset size = .ok indexs →
    (offset.toNat : Int) - toInt32 (indexs.1 * inode.getBlockSize) =
        (offset.toNat % inode.blockSize : ℕ) ∧
      (offset.toNat : Int) - toInt32 (indexs.1 * inode.getBlockSize) + size.toNat =
        (offset.toNat % inode.blockSize + size.toNat : ℕ)

theorem getIndexs_eq (hbs : 0 < inode.getBlockSize) (offset size : UInt64) :
    getIndexs inode offset size =
      .ok ((toInt32 offset.toNat).tdiv inode.blockSize,
        (toInt32 (offset + size).toNat).tdiv inode.blockSize + 1) := by
  rw [getIndexs, alignIndexDown, if_neg hbs.ne', alignIndexUp, if_neg hbs.ne',
    Inode.coe_blockSize hbs]
  rfl

theorem toNat_add_of_lt {a b : UInt64} (h : a.toNat + b.toNat < 2 ^ 64) :
    (a + b).toNat = a.toNat + b.toNat := by
  rw [UInt64.toNat_add, Nat.mod_eq_of_lt h]

theorem getIndexs_of_lt (hbs : 0 < inode.getBlockSize) {offset size : UInt64}
    (h : offset.toNat + size.toNat < 2 ^ 31) :
    getIndexs inode offset size = .ok
      (((Exact.getIndexs inode.blockSize offset.toNat size.toNat).1 : Int),
        ((Exact.getIndexs inode.blockSize offset.toNat size.toNat).2 : Int)) := by
  have hpos := Inode.blockSize_pos hbs
  rw [getIndexs_eq hbs, toNat_add_of_lt (by omega),
    (tdiv_toInt32_iff hpos inode.blockSize_lt).mpr (by omega),
    (tdiv_toInt32_iff hpos inode.blockSize_lt).mpr h]
  rfl

/-- A window is exact if and only if it ends below 2 GiB. -/
theorem exactWindow_iff (hbs : 0 < inode.getBlockSize) {offset size : UInt64}
    (hsum : offset.toNat + size.toNat < 2 ^ 64) :
    ExactWindow inode offset size ↔ offset.toNat + size.toNat < 2 ^ 31 := by
  have hpos := Inode.blockSize_pos hbs
  constructor
  · intro h
    have hindexs := h.indexs
    rw [getIndexs_eq hbs, toNat_add_of_lt hsum] at hindexs
    have hsecond := congrArg Prod.snd (Except.ok.inj hindexs)
    refine (tdiv_toInt32_iff hpos inode.blockSize_lt).mp ?_
    have hcast : ((Exact.getIndexs inode.blockSize offset.toNat size.toNat).2 : Int) =
        ((offset.toNat + size.toNat) / inode.blockSize : ℕ) + 1 := Int.natCast_add _ 1
    have hsum := hsecond.trans hcast
    simp only at hsum
    omega
  · intro h
    have hindexs := getIndexs_of_lt hbs h
    have hdiv : offset.toNat / inode.blockSize * inode.blockSize ≤ offset.toNat :=
      Nat.div_mul_le_self _ _
    have hbase : ∀ indexs, getIndexs inode offset size = .ok indexs →
        toInt32 (indexs.1 * inode.getBlockSize) =
          (offset.toNat / inode.blockSize * inode.blockSize : ℕ) := by
      intro indexs hind
      rw [hindexs] at hind
      rw [← Except.ok.inj hind, ← Inode.coe_blockSize hbs, ← Int.natCast_mul]
      exact toInt32_of_lt (by simp only [Exact.getIndexs]; omega)
    have hmod := Nat.div_add_mod' offset.toNat inode.blockSize
    refine ⟨hindexs, hbase, fun indexs hind => ?_⟩
    rw [hbase indexs hind]
    omega

theorem toNat_ofInt (n : Int) : (UInt64.ofInt n).toNat = (n % 2 ^ 64).toNat := by
  rw [UInt64.ofInt, UInt64.toNat_ofNat', Nat.mod_eq_of_lt]
  omega

theorem toNat_max (a b : UInt64) : (max a b).toNat = max a.toNat b.toNat := by
  show (if a ≤ b then b else a).toNat = _
  split
  · rename_i h
    exact (Nat.max_eq_right (UInt64.le_iff_toNat_le.mp h)).symm
  · rename_i h
    rw [UInt64.le_iff_toNat_le] at h
    exact (Nat.max_eq_left (by omega)).symm

theorem toNat_ofInt_getBlockSize (hbs : 0 < inode.getBlockSize) :
    (UInt64.ofInt inode.getBlockSize).toNat = inode.blockSize := by
  have hlt := inode.blockSize_lt
  rw [toNat_ofInt, ← Inode.coe_blockSize hbs]
  omega

/-- The size of the last block is an `int`, and so is its index. -/
theorem toNat_end (hbs : 0 < inode.getBlockSize) {last lastSize : ℕ} (hlast : last < 2 ^ 31)
    (hlastSize : lastSize < 2 ^ 31) :
    (UInt64.ofNat last * .ofInt inode.getBlockSize + .ofNat lastSize).toNat =
      last * inode.blockSize + lastSize := by
  have hlt := inode.blockSize_lt
  have hmul : last * inode.blockSize < 2 ^ 31 * 2 ^ 31 := Nat.mul_lt_mul'' hlast hlt
  rw [UInt64.toNat_add, UInt64.toNat_mul, toNat_ofInt_getBlockSize hbs, UInt64.toNat_ofNat',
    UInt64.toNat_ofNat',
    Nat.mod_eq_of_lt (a := last) (by omega), Nat.mod_eq_of_lt (a := lastSize) (by omega),
    Nat.mod_eq_of_lt (a := last * inode.blockSize) (by omega)]
  exact Nat.mod_eq_of_lt (by omega)

/-- The size that `fsync` sends is exact if and only if it is below 2 GiB. -/
theorem toNat_fsyncSize_iff (hbs : 0 < inode.getBlockSize) {last lastSize : ℕ}
    (hsize : inode.filesize.toNat < 2 ^ 63) (hlast : last < 2 ^ 31)
    (hlastSize : lastSize < 2 ^ 31) :
    (fsyncSize inode last lastSize).toNat = Exact.fsyncSize inode last lastSize ↔
      Exact.fsyncSize inode last lastSize < 2 ^ 31 := by
  have hmul : last * inode.blockSize < 2 ^ 31 * 2 ^ 31 := Nat.mul_lt_mul'' hlast inode.blockSize_lt
  have hlt : Exact.fsyncSize inode last lastSize < 2 ^ 63 := by
    rw [Exact.fsyncSize]
    omega
  have hmax : (max inode.filesize
      (UInt64.ofNat last * .ofInt inode.getBlockSize + .ofNat lastSize)).toNat =
        Exact.fsyncSize inode last lastSize := by
    rw [toNat_max, toNat_end hbs hlast hlastSize, Exact.fsyncSize]
  rw [fsyncSize, hmax, toNat_ofInt]
  constructor
  · intro h
    by_contra hbig
    have hle := toInt32_add_le (Nat.not_lt.mp hbig)
    have hge := le_toInt32 (Exact.fsyncSize inode last lastSize)
    omega
  · intro h
    rw [toInt32_of_lt h]
    omega

/-- The arithmetic is exact for the windows that end below 2 GiB and for the sizes below
2 GiB, and for no others. -/
theorem exact_iff (hbs : 0 < inode.getBlockSize) (hsize : inode.filesize.toNat < 2 ^ 63) :
    (∀ offset size : UInt64, offset.toNat + size.toNat ≤ inode.filesize.toNat →
      (Exact.getIndexs inode.blockSize offset.toNat size.toNat).2 < 2 ^ 31 →
      (ExactWindow inode offset size ↔ offset.toNat + size.toNat < 2 ^ 31)) ∧
    ∀ last lastSize, last < 2 ^ 31 → lastSize < 2 ^ 31 →
      ((fsyncSize inode last lastSize).toNat = Exact.fsyncSize inode last lastSize ↔
        Exact.fsyncSize inode last lastSize < 2 ^ 31) :=
  ⟨fun _ _ hsum _ => exactWindow_iff hbs (by omega),
    fun _ _ hlast hlastSize => toNat_fsyncSize_iff hbs hsize hlast hlastSize⟩

/-- A file of 2 GiB with the storage type that `_create` uses. -/
def bigInode : Inode := { noInode with filesize := 2147483648, storageType := some (.rs 7 5 16) }

/-- The windows inside of its first GiB are exact, and so is a size of 1 GiB of a smaller
file. -/
theorem exact_below :
    ExactWindow bigInode 16777216 1000 ∧
      (fsyncSize { bigInode with filesize := 0 } 63 16777216).toNat = 1073741824 := by
  refine ⟨((@exact_iff bigInode (by decide) (by decide)).1 16777216 1000 (by decide)
    (by decide)).mpr (by decide), ?_⟩
  exact ((@exact_iff { bigInode with filesize := 0 } (by decide) (by decide)).2 63 16777216
    (by decide) (by decide)).mpr (by decide)

/-- To read it as a whole, `get_indexs` answers the indices 0 and -127. -/
theorem not_exact :
    ¬ ∀ (inode : Inode) (offset size : UInt64), 0 < inode.getBlockSize →
      inode.filesize.toNat < 2 ^ 63 → offset.toNat + size.toNat ≤ inode.filesize.toNat →
      (Exact.getIndexs inode.blockSize offset.toNat size.toNat).2 < 2 ^ 31 →
      ExactWindow inode offset size := by
  intro h
  have hwindow := (h bigInode 0 2147483648 (by decide) (by decide) (by decide) (by decide)).indexs
  have hindexs : getIndexs bigInode 0 2147483648 = .ok (0, -127) := by decide +kernel
  rw [hindexs] at hwindow
  exact absurd (congrArg Prod.snd (Except.ok.inj hwindow)) (by decide)

/-! ## The calls -/

namespace Exact

variable (x : External)

/-- One block in the loop of `read_data`. -/
def readBlock (net : Net) (inode : Inode) (index : ℕ) (s : String) : Call Bytes := do
  match (← getThe State).block inode.fullpath.text index with
  | some (byte :: bytes) => return byte :: bytes
  | none | some [] => fetchBlock x net inode index s

/-- The loop of `read_data`, with the number of the rounds that are left. -/
def readLoop (net : Net) (inode : Inode) (second : ℕ) : ℕ → ℕ → Call Bytes
  | 0, _ => pure []
  | n + 1, index =>
    match inode.sub[index]? with
    | none => pure (List.replicate ((second - index) * inode.blockSize) 0)
    | some s => do
      let block ← readBlock x net inode index s
      let rest ← readLoop net inode second n (index + 1)
      return block ++ rest

/-- `SDK::read_data(inode, indexs)`.  The iterator must not start behind the end. -/
def readBlocks (net : Net) (inode : Inode) (indexs : ℕ × ℕ) : Call Bytes :=
  if inode.sub.length < indexs.1 then throw .undefined
  else readLoop x net inode indexs.2 (indexs.2 - indexs.1) indexs.1

/-- `SDK::read_data(path, offset, size)`. -/
def readData (net : Net) (path : String) (offset size : ℕ) : Call Bytes := do
  let inode ← getInode path
  if inode.filesize.toNat < offset then return []
  let size := if inode.filesize.toNat < offset + size then inode.filesize.toNat - offset else size
  let indexs := getIndexs inode.blockSize offset size
  let s ← readBlocks x net inode indexs
  lift (slice s (offset - (indexs.1 * inode.blockSize : ℕ)) size)

/-- The number of bytes that `write_data` writes to the block of an index. -/
def localSize (bs offset last : ℕ) (indexs : ℕ × ℕ) (index : ℕ) : ℕ :=
  let left := if index = indexs.1 then offset % bs else 0
  let right := if index = indexs.2 - 1 then last % bs else bs
  right - left

/-- The loop of `write_data`, with the number of the rounds that are left and the rest of
the text. -/
def writeLoop (path : String) (bs offset last : ℕ) (indexs : ℕ × ℕ) : ℕ → ℕ → Bytes → Call Unit
  | 0, _, _ => pure ()
  | n + 1, index, rest => do
    let size := localSize bs offset last indexs index
    if rest.length < size then throw .undefined
    inFolder path "failed to write data to " fun folder =>
      folder.setBlock index ((folder.block index).getD [] ++ rest.take size)
    lnPathIndex path index
    writeLoop path bs offset last indexs n (index + 1) (rest.drop size)

/-- The first block of a write is fetched. -/
def FetchesFirst (inode : Inode) (offset : ℕ) : Prop :=
  offset < inode.filesize.toNat ∧ offset % inode.blockSize ≠ 0

/-- The last block of a write up to `last` is fetched. -/
def FetchesLast (inode : Inode) (last : ℕ) (indexs : ℕ × ℕ) : Prop :=
  last < inode.filesize.toNat ∧ indexs.1 ≠ indexs.2 - 1 ∧ last % inode.blockSize ≠ 0

instance (inode : Inode) (offset : ℕ) : Decidable (FetchesFirst inode offset) :=
  inferInstanceAs (Decidable (_ ∧ _))

instance (inode : Inode) (last : ℕ) (indexs : ℕ × ℕ) : Decidable (FetchesLast inode last indexs) :=
  inferInstanceAs (Decidable (_ ∧ _ ∧ _))

/-- A call of `read_data` for the file that it leaves. -/
def fetch (net : Net) (inode : Inode) (indexs : ℕ × ℕ) : Call Unit := do
  let _ ← readBlocks x net inode indexs

/-- The part of `write_data` before its loop. -/
def prefetch (net : Net) (inode : Inode) (offset size : ℕ) : Call Unit := do
  let indexs := getIndexs inode.blockSize offset size
  if FetchesFirst inode offset then fetch x net inode (indexs.1, indexs.1 + 1)
  if FetchesLast inode (offset + size) indexs then fetch x net inode (indexs.2 - 1, indexs.2)

/-- `SDK::write_data`. -/
def writeData (net : Net) (path : String) (offset : ℕ) (s : Bytes) : Call Unit := do
  let inode ← getInode path
  let indexs := getIndexs inode.blockSize offset s.length
  prefetch x net inode offset s.length
  writeLoop path inode.blockSize offset (offset + s.length) indexs (indexs.2 - indexs.1) indexs.1 s

/-! ## The calls below 2 GiB -/

variable {x} {net : Net} {inode : Inode}

/-- The files of the blocks of the list, from an index on, are not too long for an `int`. -/
def SmallFiles (inode : Inode) (st : State) (first : ℕ) : Prop :=
  ∀ i data, first ≤ i → i < inode.sub.length → st.block inode.fullpath.text i = some data →
    data.length < 2 ^ 31

/-- A fetch changes only its own file. -/
theorem block_of_run_fetchBlock {st st' : State} {index : ℕ} {s : String} {block : Bytes}
    (h : (fetchBlock x net inode index s).run st = .ok block st') {i : ℕ} (hi : i ≠ index) :
    st'.block inode.fullpath.text i = st.block inode.fullpath.text i := by
  simp only [fetchBlock, run_bind_eq_ok, run_lift_eq_ok] at h
  obtain ⟨_, st₁, h₁, _, _, ⟨_, rfl⟩, _, st₂, h₂, h⟩ := h
  have hother : ∀ {st st' : State} {u : Unit} {data : Bytes},
      (inFolder inode.fullpath.text "openfile error:" fun folder =>
        folder.setBlock index data).run st = .ok u st' →
      st'.block inode.fullpath.text i = st.block inode.fullpath.text i := by
    intro st st' u data hrun
    cases hfolder : st.tmp inode.fullpath.text with
    | none =>
      have hfail : (inFolder inode.fullpath.text "openfile error:" fun folder =>
          folder.setBlock index data).run st =
            .error (.thrown (.runtime "openfile error:")) st := by
        show inFolder _ _ _ st = _
        rw [inFolder, hfolder]
      rw [hfail] at hrun
      cases hrun
    | some folder =>
      rw [run_inFolder hfolder] at hrun
      cases hrun
      rw [State.block_setFolder, Folder.setBlock, State.block, hfolder, Option.bind_some]
      exact Function.update_of_ne hi _ _
  cases h
  rw [hother h₂, hother h₁]

theorem readFile_of_lt {data : Bytes} (h : data.length < 2 ^ 31) : readFile data = .ok data := by
  rw [readFile, toInt32_of_lt h, if_neg (by omega), Int.toNat_natCast, List.take_length]

theorem run_readBlock_exact {st : State} {index : ℕ}
    (hsmall : ∀ data, st.block inode.fullpath.text index = some data → data.length < 2 ^ 31)
    (s : String) :
    (SDK.readBlock x net inode index s).run st = (readBlock x net inode index s).run st := by
  rw [SDK.readBlock, readBlock, run_get_bind, run_get_bind]
  cases h : st.block inode.fullpath.text index with
  | none => rfl
  | some data =>
    cases data with
    | nil => rfl
    | cons byte bytes =>
      simp only
      rw [readFile_of_lt (hsmall _ h)]
      rfl

theorem block_of_run_readBlock {st st' : State} {index : ℕ} {s : String} {block : Bytes}
    (h : (readBlock x net inode index s).run st = .ok block st') {i : ℕ} (hi : i ≠ index) :
    st'.block inode.fullpath.text i = st.block inode.fullpath.text i := by
  rw [readBlock, run_get_bind] at h
  split at h
  · cases h
    rfl
  · exact block_of_run_fetchBlock h hi
  · exact block_of_run_fetchBlock h hi

/-- At most one block behind the end is read as zeros. -/
theorem run_readLoop_exact (hbs : 0 < inode.getBlockSize) {second : ℕ}
    (hsecond : second ≤ inode.sub.length + 1) {n index : ℕ} (hn : index + n = second) {st : State}
    (hsmall : SmallFiles inode st index) :
    (SDK.readLoop x net inode second n index).run st =
      (readLoop x net inode second n index).run st := by
  induction n generalizing index st with
  | zero => rfl
  | succ n ih =>
    rw [SDK.readLoop, if_neg (by omega), Int.toNat_natCast, readLoop]
    cases hs : inode.sub[index]? with
    | none =>
      have hlen : inode.sub.length ≤ index := List.getElem?_eq_none_iff.mp hs
      have hone : second - index = 1 := by omega
      have hcast : ((second : Int) - index) * inode.getBlockSize = (inode.blockSize : ℕ) := by
        rw [show (second : Int) - index = 1 by omega, Int.one_mul, Inode.coe_blockSize hbs]
      simp only [hcast, zeros, toInt32_of_lt inode.blockSize_lt, hone, Nat.one_mul]
      rw [if_neg (by omega), Int.toNat_natCast]
      rfl
    | some s =>
      simp only
      obtain ⟨hindex, _⟩ := List.getElem?_eq_some_iff.mp hs
      refine run_bind_congr (run_readBlock_exact (fun data => hsmall index data le_rfl hindex) s)
        fun block st' hrun => ?_
      have hsmall' : SmallFiles inode st' (index + 1) := by
        intro i data hi hlt hdata
        rw [block_of_run_readBlock hrun (by omega)] at hdata
        exact hsmall i data (by omega) hlt hdata
      have hrest := ih (by omega) hsmall'
      rw [Int.natCast_add] at hrest
      exact run_bind_congr hrest fun _ _ _ => rfl

theorem run_readBlocks_exact (hbs : 0 < inode.getBlockSize) {first second : ℕ}
    (hfirst : first ≤ inode.sub.length) (hle : first ≤ second)
    (hsecond : second ≤ inode.sub.length + 1) {st : State}
    (hsmall : SmallFiles inode st first) :
    (SDK.readBlocks x net inode (first, second)).run st =
      (readBlocks x net inode (first, second)).run st := by
  rw [SDK.readBlocks, readBlocks, if_neg (Nat.not_lt.mpr hfirst)]
  have hrounds : ((second : Int) - first).toNat = second - first := by omega
  rw [hrounds]
  exact run_readLoop_exact hbs hsecond (by omega) hsmall

/-- The iterator of `read_data` stays inside of the list, up to its end. -/
theorem getIndexs_le
    (hcover : inode.filesize.toNat ≤ inode.sub.length * inode.blockSize) {offset size : ℕ}
    (h : offset + size ≤ inode.filesize.toNat) :
    (getIndexs inode.blockSize offset size).1 ≤ inode.sub.length ∧
      (getIndexs inode.blockSize offset size).1 ≤ (getIndexs inode.blockSize offset size).2 ∧
      (getIndexs inode.blockSize offset size).2 ≤ inode.sub.length + 1 := by
  have hle : (offset + size) / inode.blockSize ≤ inode.sub.length :=
    Nat.div_le_of_le_mul (by rw [Nat.mul_comm]; omega)
  have hmono : offset / inode.blockSize ≤ (offset + size) / inode.blockSize :=
    Nat.div_le_div_right (Nat.le_add_right _ _)
  simp only [getIndexs]
  omega

/-- For a file below 2 GiB, `read_data` is what it is in exact arithmetic. -/
theorem run_readData_exact {path : String} {st : State} {offset size : UInt64}
    (hcache : st.localInodeCache path = some inode) (hbs : 0 < inode.getBlockSize)
    (hcover : inode.filesize.toNat ≤ inode.sub.length * inode.blockSize)
    (hsize : inode.filesize.toNat < 2 ^ 31) (hsum : offset.toNat + size.toNat < 2 ^ 64)
    (hsmall : SmallFiles inode st 0) :
    (SDK.readData x net path offset size).run st =
      (readData x net path offset.toNat size.toNat).run st := by
  rw [SDK.readData, readData, run_bind_of_ok (run_getInode_of_some hcache),
    run_bind_of_ok (run_getInode_of_some hcache)]
  simp only [UInt64.lt_iff_toNat_lt, toNat_add_of_lt hsum]
  split
  · rfl
  · rename_i hoffset
    have hclip : (if inode.filesize.toNat < offset.toNat + size.toNat then inode.filesize - offset
        else size).toNat =
          if inode.filesize.toNat < offset.toNat + size.toNat then
            inode.filesize.toNat - offset.toNat
          else size.toNat := by
      split
      · exact UInt64.toNat_sub_of_le _ _ (UInt64.le_iff_toNat_le.mpr (by omega))
      · rfl
    have hwindow : offset.toNat + (if inode.filesize.toNat < offset.toNat + size.toNat then
        inode.filesize.toNat - offset.toNat else size.toNat) ≤ inode.filesize.toNat := by
      split <;> omega
    rw [← hclip] at hwindow ⊢
    generalize (if inode.filesize.toNat < offset.toNat + size.toNat then inode.filesize - offset
      else size) = size' at hwindow ⊢
    have hexact := (exactWindow_iff hbs (by omega)).mpr (show offset.toNat + size'.toNat < 2 ^ 31 by
      omega)
    obtain ⟨hfirst, hle, hsecond⟩ := getIndexs_le hcover hwindow
    rw [run_bind_of_ok (run_lift_eq_ok.mpr ⟨hexact.indexs, rfl⟩)]
    refine run_bind_congr (run_readBlocks_exact hbs hfirst hle hsecond
      fun i data _ => hsmall i data (Nat.zero_le i)) fun s st' _ => ?_
    simp only
    rw [← hexact.base _ hexact.indexs]

/-- The bounds inside of a block come in their order. -/
theorem left_le_right {bs : ℕ} (hbs : 0 < bs) (offset size index : ℕ) :
    (if index = (getIndexs bs offset size).1 then offset % bs else 0) ≤
      if index = (getIndexs bs offset size).2 - 1 then (offset + size) % bs else bs := by
  by_cases hfirst : index = (getIndexs bs offset size).1
  · rw [if_pos hfirst]
    by_cases hlast : index = (getIndexs bs offset size).2 - 1
    · rw [if_pos hlast]
      have hdiv := Nat.div_add_mod' offset bs
      have hdiv' := Nat.div_add_mod' (offset + size) bs
      have hsame : (offset + size) / bs = offset / bs := hlast.symm.trans hfirst
      rw [hsame] at hdiv'
      omega
    · rw [if_neg hlast]
      exact (Nat.mod_lt offset hbs).le
  · rw [if_neg hfirst]
    exact Nat.zero_le _

theorem localSize_exact (hbs : 0 < inode.getBlockSize) {offset last : UInt64} {size : ℕ}
    (hlast : last.toNat = offset.toNat + size) (index : ℕ) :
    SDK.localSize (.ofInt inode.getBlockSize) offset last
        (((getIndexs inode.blockSize offset.toNat size).1 : Int),
          ((getIndexs inode.blockSize offset.toNat size).2 : Int)) index =
      localSize inode.blockSize offset.toNat (offset.toNat + size)
        (getIndexs inode.blockSize offset.toNat size) index := by
  have hle := left_le_right (Inode.blockSize_pos hbs) offset.toNat size index
  have hcast := toNat_ofInt_getBlockSize hbs
  have hleft : (if index = (getIndexs inode.blockSize offset.toNat size).1 then
      offset % .ofInt inode.getBlockSize else 0 : UInt64).toNat =
        if index = (getIndexs inode.blockSize offset.toNat size).1 then
          offset.toNat % inode.blockSize
        else 0 := by
    split
    · rw [UInt64.toNat_mod, hcast]
    · rfl
  have hright : (if index = (getIndexs inode.blockSize offset.toNat size).2 - 1 then
      last % .ofInt inode.getBlockSize else .ofInt inode.getBlockSize : UInt64).toNat =
        if index = (getIndexs inode.blockSize offset.toNat size).2 - 1 then
          (offset.toNat + size) % inode.blockSize
        else inode.blockSize := by
    split
    · rw [UInt64.toNat_mod, hcast, hlast]
    · exact hcast
  have hsecond : ((index : Int) = ((getIndexs inode.blockSize offset.toNat size).2 : Int) - 1) ↔
      index = (getIndexs inode.blockSize offset.toNat size).2 - 1 := by
    simp only [getIndexs]
    generalize (offset.toNat + size) / inode.blockSize = second
    omega
  simp only [SDK.localSize, localSize, Int.ofNat_inj, hsecond]
  rw [← hleft, ← hright] at hle ⊢
  exact UInt64.toNat_sub_of_le _ _ (UInt64.le_iff_toNat_le.mpr hle)

theorem writeLoop_exact (hbs : 0 < inode.getBlockSize) (path : String) {offset last : UInt64}
    {size : ℕ} (hlast : last.toNat = offset.toNat + size) {n index : ℕ} (hn : index + n ≤ 2 ^ 31)
    (rest : Bytes) :
    SDK.writeLoop path (.ofInt inode.getBlockSize) offset last
        (((getIndexs inode.blockSize offset.toNat size).1 : Int),
          ((getIndexs inode.blockSize offset.toNat size).2 : Int)) n index rest =
      writeLoop path inode.blockSize offset.toNat (offset.toNat + size)
        (getIndexs inode.blockSize offset.toNat size) n index rest := by
  induction n generalizing index rest with
  | zero => rfl
  | succ n ih =>
    have hindex : ((index : Int) % 2 ^ 32).toNat = index := by omega
    rw [SDK.writeLoop, writeLoop]
    simp only [localSize_exact hbs hlast, hindex]
    have hnext := @ih (index + 1) (by omega)
    simp only [Int.natCast_add, Int.cast_ofNat_Int] at hnext
    simp only [hnext]

/-- The blocks that are fetched are blocks of the list. -/
theorem div_lt_length (hcover : inode.filesize.toNat ≤ inode.sub.length * inode.blockSize)
    {offset : ℕ} (h : offset < inode.filesize.toNat) :
    offset / inode.blockSize < inode.sub.length :=
  Nat.div_lt_of_lt_mul (by rw [Nat.mul_comm]; omega)

theorem prefetch_eq (net : Net) (inode : Inode) (offset size : ℕ) :
    prefetch x net inode offset size =
      (if FetchesFirst inode offset then
        fetch x net inode ((getIndexs inode.blockSize offset size).1,
          (getIndexs inode.blockSize offset size).1 + 1)
      else pure ()) >>= fun _ =>
        if FetchesLast inode (offset + size) (getIndexs inode.blockSize offset size) then
          fetch x net inode ((getIndexs inode.blockSize offset size).2 - 1,
            (getIndexs inode.blockSize offset size).2)
        else pure () := by
  rw [prefetch]
  split <;> split <;> rfl

theorem writeData_eq (net : Net) (path : String) (offset : UInt64) (s : Bytes) :
    SDK.writeData x net path offset s = getInode path >>= fun inode =>
      lift (SDK.getIndexs inode offset (.ofNat s.length)) >>= fun indexs =>
      (if offset < inode.filesize ∧ offset % .ofInt inode.getBlockSize ≠ 0 then
        SDK.readBlocks x net inode (indexs.1, indexs.1 + 1) >>= fun _ => pure ()
      else pure ()) >>= fun _ =>
      (if offset + .ofNat s.length < inode.filesize ∧ indexs.1 ≠ indexs.2 - 1 ∧
          (offset + .ofNat s.length) % .ofInt inode.getBlockSize ≠ 0 then
        SDK.readBlocks x net inode (indexs.2 - 1, indexs.2) >>= fun _ => pure ()
      else pure ()) >>= fun _ =>
      SDK.writeLoop path (.ofInt inode.getBlockSize) offset (offset + .ofNat s.length) indexs
        (indexs.2 - indexs.1).toNat indexs.1 s := by
  rw [SDK.writeData]
  refine bind_congr fun inode => bind_congr fun indexs => ?_
  split <;> split <;> simp only [bind_assoc, pure_bind]

theorem ne_zero_iff_toNat {a : UInt64} : a ≠ 0 ↔ a.toNat ≠ 0 := by
  rw [ne_eq, ne_eq, ← UInt64.toNat_inj]
  rfl

/-- A fetch changes only its own file. -/
theorem block_of_run_fetch {st st' : State} {first : ℕ} {u : Unit}
    (h : (fetch x net inode (first, first + 1)).run st = .ok u st') {i : ℕ} (hi : i ≠ first) :
    st'.block inode.fullpath.text i = st.block inode.fullpath.text i := by
  rw [fetch, readBlocks] at h
  split at h
  · cases h
  · rw [Nat.add_sub_cancel_left, readLoop] at h
    split at h
    · cases h
      rfl
    · obtain ⟨_, st₁, h₁, h⟩ := run_bind_eq_ok.mp h
      obtain ⟨_, st₂, h₂, h₁⟩ := run_bind_eq_ok.mp h₁
      cases h₁
      cases h
      exact block_of_run_readBlock h₂ hi

theorem run_fetch_exact (hbs : 0 < inode.getBlockSize) {first : ℕ}
    (hfirst : first < inode.sub.length) {st : State}
    (hsmall : SmallFiles inode st first) :
    (SDK.readBlocks x net inode (first, (first : Int) + 1) >>= fun _ => pure ()).run st =
      (fetch x net inode (first, first + 1)).run st :=
  run_bind_congr (run_readBlocks_exact hbs hfirst.le (Nat.le_succ first) (by omega) hsmall)
    fun _ _ _ => rfl

theorem fetchesFirst_iff (hbs : 0 < inode.getBlockSize) (offset : UInt64) :
    (offset < inode.filesize ∧ offset % .ofInt inode.getBlockSize ≠ 0) ↔
      FetchesFirst inode offset.toNat := by
  rw [UInt64.lt_iff_toNat_lt, ne_zero_iff_toNat, UInt64.toNat_mod, toNat_ofInt_getBlockSize hbs]
  rfl

theorem fetchesLast_iff (hbs : 0 < inode.getBlockSize) {last : UInt64} {offset size : ℕ}
    (hlast : last.toNat = offset + size) :
    (last < inode.filesize ∧ ((getIndexs inode.blockSize offset size).1 : Int) ≠
        ((getIndexs inode.blockSize offset size).2 : Int) - 1 ∧
      last % .ofInt inode.getBlockSize ≠ 0) ↔
      FetchesLast inode (offset + size) (getIndexs inode.blockSize offset size) := by
  have hneq : ((getIndexs inode.blockSize offset size).1 : Int) ≠
      ((getIndexs inode.blockSize offset size).2 : Int) - 1 ↔
      (getIndexs inode.blockSize offset size).1 ≠
        (getIndexs inode.blockSize offset size).2 - 1 := by
    simp only [getIndexs]
    generalize (offset + size) / inode.blockSize = second
    omega
  rw [UInt64.lt_iff_toNat_lt, ne_zero_iff_toNat, UInt64.toNat_mod, toNat_ofInt_getBlockSize hbs,
    hlast, hneq]
  rfl

/-- The block that is fetched first is none of those behind it. -/
theorem SmallFiles.of_fetch {st st₁ : State} {u : Unit} {c : Prop} [Decidable c] {first second : ℕ}
    (hsmall : SmallFiles inode st 0) (hlt : first < second)
    (hrun : (if c then fetch x net inode (first, first + 1) else pure () : Call Unit).run st =
      .ok u st₁) : SmallFiles inode st₁ second := by
  intro i data hi hlength hdata
  refine hsmall i data (Nat.zero_le i) hlength ?_
  split at hrun
  · rw [← block_of_run_fetch hrun (show i ≠ first by omega)]
    exact hdata
  · cases hrun
    exact hdata

/-- For a write that ends below 2 GiB, `write_data` is what it is in exact arithmetic. -/
theorem run_writeData_exact {path : String} {st : State} {offset : UInt64} {s : Bytes}
    (hcache : st.localInodeCache path = some inode) (hbs : 0 < inode.getBlockSize)
    (hcover : inode.filesize.toNat ≤ inode.sub.length * inode.blockSize)
    (hsum : offset.toNat + s.length < 2 ^ 31)
    (hsmall : SmallFiles inode st 0) :
    (SDK.writeData x net path offset s).run st =
      (writeData x net path offset.toNat s).run st := by
  have hlength : (UInt64.ofNat s.length).toNat = s.length :=
    UInt64.toNat_ofNat_of_lt' (by rw [UInt64.size]; omega)
  have hlast : (offset + UInt64.ofNat s.length).toNat = offset.toNat + s.length := by
    rw [toNat_add_of_lt (by omega), hlength]
  have hindexs := getIndexs_of_lt hbs
    (show offset.toNat + (UInt64.ofNat s.length).toNat < 2 ^ 31 by omega)
  rw [hlength] at hindexs
  have hmono : offset.toNat / inode.blockSize ≤ (offset.toNat + s.length) / inode.blockSize :=
    Nat.div_le_div_right (Nat.le_add_right _ _)
  rw [writeData_eq, writeData, run_bind_of_ok (run_getInode_of_some hcache),
    run_bind_of_ok (run_getInode_of_some hcache),
    run_bind_of_ok (run_lift_eq_ok.mpr ⟨hindexs, rfl⟩), prefetch_eq]
  simp only [fetchesFirst_iff hbs offset, fetchesLast_iff hbs hlast, bind_assoc]
  refine run_bind_congr ?_ fun _ st₁ hst₁ => run_bind_congr ?_ fun _ st₂ _ => ?_
  · split
    · rename_i hfetch
      exact run_fetch_exact hbs (div_lt_length hcover hfetch.1) fun i data _ =>
        hsmall i data (Nat.zero_le i)
    · rfl
  · split
    · rename_i hfetch
      have hne : offset.toNat / inode.blockSize ≠ (offset.toNat + s.length) / inode.blockSize :=
        hfetch.2.1
      have hcast : ((getIndexs inode.blockSize offset.toNat s.length).2 : Int) - 1 =
          ((offset.toNat + s.length) / inode.blockSize : ℕ) := by
        simp only [getIndexs]
        omega
      rw [hcast]
      exact run_fetch_exact hbs (div_lt_length hcover hfetch.1)
        (hsmall.of_fetch (Nat.lt_of_le_of_ne hmono hne) hst₁)
    · rfl
  · have hlt : (offset.toNat + s.length) / inode.blockSize < 2 ^ 31 :=
      lt_of_le_of_lt (Nat.div_le_self _ _) hsum
    have hrounds : (((getIndexs inode.blockSize offset.toNat s.length).2 : Int) -
        (getIndexs inode.blockSize offset.toNat s.length).1).toNat =
          (getIndexs inode.blockSize offset.toNat s.length).2 -
            (getIndexs inode.blockSize offset.toNat s.length).1 := by omega
    simp only [hrounds]
    rw [writeLoop_exact hbs path hlast (by simp only [getIndexs]; omega) s]

end Exact

end SDK

end Spkdfs
