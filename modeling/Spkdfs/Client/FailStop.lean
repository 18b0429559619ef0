import Spkdfs.Client.Session

/-!
# Blocks that cannot be had

`decode_one` swallows the failure of a single datanode, and when too few are left it
answers the empty text.  Neither `get` nor `read_data` looks at that: they go on with
the next block.  So a call whose blocks can all be had answers the bytes of the file,
and a call with a block that cannot be had returns as well.
-/

namespace Spkdfs

open Effects

namespace SDK

variable (x : External)

/-- Too few of the places of the entry return data with the listed digest. -/
def Short (net : Net) (t : StorageType) (s : String) : Prop := available x net s < t.getDecodeBlocks

/-- The block is read from its file. -/
def Fetched (st : State) (path : String) (i : ℕ) : Prop := ∃ data ≠ [], st.block path i = some data

/-- An entry that `read_data` decodes has too few places. -/
def ShortRead (net : Net) (t : StorageType) (inode : Inode) (st : State) (first n : ℕ) : Prop :=
  ∃ i s, first ≤ i ∧ i < first + n ∧ inode.sub[i]? = some s ∧
    ¬ Fetched st inode.fullpath.text i ∧ Short x net t s

/-- The zeros that `read_data` answers behind the end of the list. -/
def behindEnd (inode : Inode) (first n : ℕ) : Except Abrupt Bytes :=
  if first + n ≤ max first inode.sub.length then .ok []
  else zeros (((first + n : ℕ) - (max first inode.sub.length : ℕ)) * inode.getBlockSize)

/-- A shortage ends the call with an exception, and a call that returns answers these
bytes. -/
def FailStop (shortage : Prop) (bytes : Bytes) (res : Except Abrupt Bytes) : Prop :=
  (shortage → ∃ e, res = .error (.thrown e)) ∧ ∀ out, res = .ok out → out = bytes

variable {x}

/-- A call that always returns stops at a shortage only if there is none. -/
theorem failStop_iff_of_ok {shortage : Prop} {bytes out : Bytes} {res : Except Abrupt Bytes}
    (hres : res = .ok out) (hout : ¬ shortage → out = bytes) :
    FailStop shortage bytes res ↔ ¬ shortage := by
  subst hres
  constructor
  · rintro ⟨hstop, _⟩ hshort
    obtain ⟨e, he⟩ := hstop hshort
    cases he
  · intro hno
    refine ⟨fun hshort => absurd hshort hno, fun out' h => ?_⟩
    rw [← Except.ok.inj h]
    exact hout hno

theorem exists_block_of_entry {t : StorageType} {blocks : List Bytes} {sub : List String}
    (h : List.Forall₂ (IsEntry x t) blocks sub) {i : ℕ} {s : String} (hs : sub[i]? = some s) :
    ∃ block, blocks[i]? = some block ∧ IsEntry x t block s := by
  obtain ⟨hlen, hget⟩ := List.forall₂_iff_get.mp h
  obtain ⟨hi, rfl⟩ := List.getElem?_eq_some_iff.mp hs
  have hi' : i < blocks.length := by omega
  exact ⟨blocks[i], List.getElem?_eq_getElem hi', hget i hi' hi⟩

section Read

variable {net : Net} {t : StorageType} {inode : Inode} {blocks : List Bytes}

/-- The local block files of the indices from `i` on hold the blocks. -/
def LocalCopies (st : State) (path : String) (blocks : List Bytes) (i : ℕ) : Prop :=
  (∃ folder, st.tmp path = some folder) ∧
    ∀ j data, i ≤ j → st.block path j = some data → data ≠ [] →
      ∃ block, blocks[j]? = some block ∧ readFile data = .ok block

/-- What a read of one block does. -/
theorem readBlock_of_isEntry (hx : x.Lawful) (htype : inode.storageType = some t) {st : State}
    {i : ℕ} {s : String} {block : Bytes} (hentry : IsEntry x t block s)
    (hcol : NoCollision x net t block) (hblock : blocks[i]? = some block)
    (hlocal : LocalCopies st inode.fullpath.text blocks i) :
    ∃ out st', (readBlock x net inode i s).run st = .ok out st' ∧
      (Fetched st inode.fullpath.text i ∨ ¬ Short x net t s → out = block) ∧
      LocalCopies st' inode.fullpath.text blocks (i + 1) ∧
      ∀ j, i < j → st'.block inode.fullpath.text j = st.block inode.fullpath.text j := by
  obtain ⟨⟨folder, hfolder⟩, hcopies⟩ := hlocal
  by_cases hfetched : Fetched st inode.fullpath.text i
  · obtain ⟨data, hdata, hget⟩ := hfetched
    obtain ⟨b, hb, hread⟩ := hcopies i data le_rfl hget hdata
    obtain rfl : block = b := Option.some.inj (hblock.symm.trans hb)
    obtain ⟨byte, bytes, rfl⟩ := List.exists_cons_of_ne_nil hdata
    refine ⟨block, st, ?_, fun _ => rfl, ⟨⟨folder, hfolder⟩, fun j data hj => ?_⟩, fun _ _ => rfl⟩
    · rw [readBlock, run_get_bind,
        hget]
      exact run_lift_eq_ok.mpr ⟨hread, rfl⟩
    · exact hcopies j data (by omega)
  · have hdecode : decodeEntry x net inode s = .ok (blockOrEmpty x net t block s) := by
      rw [decodeEntry, htype]
      exact decodeOne_of_isEntry hx hentry hcol
    have hmiss : (readBlock x net inode i s).run st = (fetchBlock x net inode i s).run st := by
      rw [readBlock, run_get_bind]
      cases hget : st.block inode.fullpath.text i with
      | none => rfl
      | some data =>
        cases data with
        | nil => rfl
        | cons byte bytes => exact absurd ⟨_, List.cons_ne_nil byte bytes, hget⟩ hfetched
    have hother : ∀ j, i < j →
        (st.setFolder inode.fullpath.text
          (folder.setBlock i (blockOrEmpty x net t block s))).block inode.fullpath.text j =
        st.block inode.fullpath.text j := by
      intro j hj
      rw [State.block_setFolder, State.block, hfolder]
      exact Function.update_of_ne (by omega) _ _
    refine ⟨_, _, hmiss.trans (run_fetchBlock x hfolder hdecode i), ?_,
      ⟨⟨_, st.tmp_setFolder _ _⟩, ?_⟩, hother⟩
    · rintro (h | h)
      · exact absurd h hfetched
      · rw [blockOrEmpty, if_pos (Int.not_lt.mp h)]
    · intro j data hj hget
      rw [hother j (by omega)] at hget
      exact hcopies j data (by omega) hget

/-- The loop of `read_data` returns, and what it answers for the entries of the list are
their blocks, unless one that it decodes has too few places. -/
theorem readLoop_of_isEntry (hx : x.Lawful) (htype : inode.storageType = some t)
    (hentries : List.Forall₂ (IsEntry x t) blocks inode.sub)
    (hcol : ∀ block ∈ blocks, NoCollision x net t block) {st : State} {first n : ℕ} {rest : Bytes}
    (hlocal : LocalCopies st inode.fullpath.text blocks first)
    (hrest : behindEnd inode first n = .ok rest) :
    ∃ out st', (readLoop x net inode (first + n : ℕ) n first).run st = .ok (out ++ rest) st' ∧
      (¬ ShortRead x net t inode st first n → out = ((blocks.drop first).take n).flatten) := by
  have hlen : blocks.length = inode.sub.length := hentries.length_eq
  induction n generalizing first st with
  | zero =>
    rw [behindEnd, if_pos (by omega)] at hrest
    refine ⟨[], st, ?_, fun _ => by simp⟩
    rw [← Except.ok.inj hrest]
    rfl
  | succ n ih =>
    rw [readLoop, if_neg (by omega), Int.toNat_natCast]
    cases hs : inode.sub[first]? with
    | none =>
      have hend : inode.sub.length ≤ first := List.getElem?_eq_none_iff.mp hs
      rw [behindEnd, if_neg (by omega), Nat.max_eq_left hend] at hrest
      refine ⟨[], st, run_lift_eq_ok.mpr ⟨hrest, rfl⟩, fun _ => ?_⟩
      rw [List.drop_of_length_le (by omega), List.take_nil]
      rfl
    | some s =>
      obtain ⟨hfirst, _⟩ := List.getElem?_eq_some_iff.mp hs
      obtain ⟨block, hblock, hentry⟩ := exists_block_of_entry hentries hs
      obtain ⟨out₁, st₁, hrun₁, hout₁, hlocal₁, hother⟩ := readBlock_of_isEntry hx htype hentry
        (hcol block (List.mem_of_getElem? hblock)) hblock hlocal
      have hrest₁ : behindEnd inode (first + 1) n = .ok rest := by
        rw [← hrest, behindEnd, behindEnd, Nat.max_eq_right (by omega), Nat.max_eq_right (by omega),
          show first + 1 + n = first + (n + 1) by omega]
      obtain ⟨out₂, st₂, hrun₂, hout₂⟩ := ih hlocal₁ hrest₁
      refine ⟨out₁ ++ out₂, st₂, ?_, fun hshort => ?_⟩
      · rw [run_bind_of_ok hrun₁]
        have hcast : ((first + (n + 1) : ℕ) : Int) = (first + 1 + n : ℕ) ∧
            ((first : Int) + 1) = (first + 1 : ℕ) := by omega
        rw [hcast.1, hcast.2, run_bind_of_ok hrun₂, List.append_assoc]
        rfl
      · have hhead : out₁ = block := by
          apply hout₁
          by_contra hneg
          obtain ⟨hfetched, hs'⟩ := not_or.mp hneg
          exact hshort ⟨first, s, le_rfl, by omega, hs, hfetched, not_not.mp hs'⟩
        have htail : out₂ = ((blocks.drop (first + 1)).take n).flatten := by
          apply hout₂
          rintro ⟨i, s', hi, hi', hs', hfetched, hshort'⟩
          refine hshort ⟨i, s', by omega, by omega, hs', ?_, hshort'⟩
          rintro ⟨data, hdata, hget⟩
          exact hfetched ⟨data, hdata, by rw [hother i (by omega), hget]⟩
        obtain ⟨hi, hget⟩ := List.getElem?_eq_some_iff.mp hblock
        rw [hhead, htail, List.drop_eq_getElem_cons hi, hget, List.take_succ_cons,
          List.flatten_cons]

end Read

section FailStop

variable {net : Net} {t : StorageType} {inode : Inode} {blocks : List Bytes}

theorem failStop_get_iff (hx : x.Lawful) (htype : inode.storageType = some t)
    (hentries : List.Forall₂ (IsEntry x t) blocks inode.sub)
    (hcol : ∀ block ∈ blocks, NoCollision x net t block) {db : Store} {path : String}
    (hls : Namenode.ls db path = .ok inode) :
    FailStop (∃ s ∈ inode.sub, Short x net t s) (resizeFile blocks.flatten inode.filesize.toNat)
        (get x net db path) ↔
      ¬ ∃ s ∈ inode.sub, Short x net t s := by
  have hget : get x net db path =
      .ok (resizeFile (List.zipWith (blockOrEmpty x net t) blocks inode.sub).flatten
        inode.filesize.toNat) := by
    rw [get, hls]
    show getFile x net inode = _
    simp only [getFile, htype, decodeBlocks_of_isEntry hx hentries hcol]
    rfl
  refine failStop_iff_of_ok hget fun hno => ?_
  rw [zipWith_blockOrEmpty hentries]
  intro s hs
  exact Int.not_lt.mp fun hshort => hno ⟨s, hs, hshort⟩

theorem failStop_read_iff (hx : x.Lawful) (htype : inode.storageType = some t)
    (hentries : List.Forall₂ (IsEntry x t) blocks inode.sub)
    (hcol : ∀ block ∈ blocks, NoCollision x net t block) {st : State} {first n : ℕ} {rest : Bytes}
    (hlocal : LocalCopies st inode.fullpath.text blocks first)
    (hrest : behindEnd inode first n = .ok rest) :
    FailStop (ShortRead x net t inode st first n) (((blocks.drop first).take n).flatten ++ rest)
        (answer (readBlocks x net inode (first, (first + n : ℕ))) st) ↔
      ¬ ShortRead x net t inode st first n := by
  obtain ⟨out, st', hrun, hout⟩ := readLoop_of_isEntry hx htype hentries hcol hlocal hrest
  have hrounds : (((first + n : ℕ) : Int) - (first : ℕ)).toNat = n := by omega
  have hanswer : answer (readBlocks x net inode (first, (first + n : ℕ))) st =
      .ok (out ++ rest) := by
    apply answer_of_ok
    rw [readBlocks, hrounds]
    exact hrun
  refine failStop_iff_of_ok hanswer fun hno => ?_
  rw [hout hno]

/-- If every entry that a call decodes has enough places, `get` and `read_data` answer
the bytes of the file.  If one of them has not, they return nevertheless. -/
theorem failStop_iff_not_short (hx : x.Lawful) (htype : inode.storageType = some t)
    (hentries : List.Forall₂ (IsEntry x t) blocks inode.sub)
    (hcol : ∀ block ∈ blocks, NoCollision x net t block) :
    (∀ db path, Namenode.ls db path = .ok inode →
      (FailStop (∃ s ∈ inode.sub, Short x net t s)
          (resizeFile blocks.flatten inode.filesize.toNat) (get x net db path) ↔
        ¬ ∃ s ∈ inode.sub, Short x net t s)) ∧
    ∀ st first n rest, LocalCopies st inode.fullpath.text blocks first →
      behindEnd inode first n = .ok rest →
      (FailStop (ShortRead x net t inode st first n)
          (((blocks.drop first).take n).flatten ++ rest)
          (answer (readBlocks x net inode (first, (first + n : ℕ))) st) ↔
        ¬ ShortRead x net t inode st first n) :=
  ⟨fun _ _ hls => failStop_get_iff hx htype hentries hcol hls,
    fun _ _ _ _ hlocal hrest => failStop_read_iff hx htype hentries hcol hlocal hrest⟩

end FailStop

/-- The file of `put_small` with its one entry. -/
theorem exists_smallFile :
    ∃ db inode, Namenode.ls db "/f" = .ok inode ∧ inode.storageType = some (.re 2 1) ∧
      inode.sub = [smallEntry] := by
  have hok : okWith (fun db => okWith (fun inode =>
      decide (inode.storageType = some (.re 2 1) ∧ inode.sub = [smallEntry]))
        (Namenode.ls db "/f")) smallRequests = true := by
    decide +kernel
  obtain ⟨db, _, hls⟩ := okWith_eq_true.mp hok
  obtain ⟨inode, hls, htest⟩ := okWith_eq_true.mp hls
  obtain ⟨htype, hsub⟩ := of_decide_eq_true htest
  exact ⟨db, inode, hls, htype, hsub⟩

theorem isEntry_small : IsEntry smallExternal (.re 2 1) smallBlock smallEntry := by
  refine ⟨[smallBlock, smallBlock], rfl, 2, ?_⟩
  rw [decodeOneSub_smallEntry]
  rfl

/-- A datanode answers the block or nothing. -/
theorem noCollision_small {net : Net}
    (hnet : ∀ node blkid data, net node blkid = some data → data = smallBlock) :
    NoCollision smallExternal net (.re 2 1) smallBlock := by
  intro frags hfrags f hf node blkid data hdata _
  obtain rfl := Except.ok.inj hfrags
  rw [List.eq_of_mem_replicate hf]
  exact hnet node blkid data hdata

/-- With one replica left, `get` is as it should be. -/
theorem failStop_smallNet :
    ∃ db inode, Namenode.ls db "/f" = .ok inode ∧ inode.sub = [smallEntry] ∧
      FailStop (∃ s ∈ inode.sub, Short smallExternal smallNet (.re 2 1) s)
        (resizeFile [smallBlock].flatten inode.filesize.toNat)
        (get smallExternal smallNet db "/f") := by
  obtain ⟨db, inode, hls, htype, hsub⟩ := exists_smallFile
  have hnet : ∀ node blkid data, smallNet node blkid = some data → data = smallBlock := by
    intro node blkid data h
    unfold smallNet at h
    split at h
    · exact (Option.some.inj h).symm
    · cases h
  refine ⟨db, inode, hls, hsub, ((failStop_iff_not_short smallExternal_lawful htype
    (hsub ▸ .cons isEntry_small .nil) (fun block hb => ?_)).1 db "/f" hls).mpr ?_⟩
  · rw [List.mem_singleton.mp hb]
    exact noCollision_small hnet
  · rintro ⟨s, hs, hshort⟩
    rw [hsub, List.mem_singleton] at hs
    rw [hs, Short, available, decodeOneSub_smallEntry] at hshort
    simp [StorageType.getDecodeBlocks, Returns, smallNet, smallExternal, smallPlaces] at hshort

/-- If no datanode answers, `get` returns without an exception. -/
theorem not_failStop_get :
    ¬ ∀ (x : External) (net : Net) (t : StorageType) (inode : Inode) (blocks : List Bytes)
        (db : Store) (path : String), x.Lawful → inode.storageType = some t →
        List.Forall₂ (IsEntry x t) blocks inode.sub →
        (∀ block ∈ blocks, NoCollision x net t block) → Namenode.ls db path = .ok inode →
        FailStop (∃ s ∈ inode.sub, Short x net t s)
          (resizeFile blocks.flatten inode.filesize.toNat) (get x net db path) := by
  intro h
  obtain ⟨db, inode, hls, htype, hsub⟩ := exists_smallFile
  have hentries : List.Forall₂ (IsEntry smallExternal (.re 2 1)) [smallBlock] inode.sub :=
    hsub ▸ .cons isEntry_small .nil
  have hcol : ∀ block ∈ [smallBlock],
      NoCollision smallExternal (fun _ _ => none) (.re 2 1) block := by
    intro block hb
    rw [List.mem_singleton.mp hb]
    exact noCollision_small (by simp)
  have hstop := h smallExternal (fun _ _ => none) (.re 2 1) inode [smallBlock] db "/f"
    smallExternal_lawful htype hentries hcol hls
  refine (failStop_get_iff smallExternal_lawful htype hentries hcol hls).mp hstop
    ⟨smallEntry, by simp [hsub], ?_⟩
  rw [Short, available, decodeOneSub_smallEntry]
  simp [StorageType.getDecodeBlocks, Returns, smallPlaces]

end SDK

end Spkdfs
