import Spkdfs.Client.Window

/-!
# What `write_data` fetches

Before its loop, `write_data` reads the blocks at its two ends, if it finds that it has to.
`run_prefetch` is what that leaves on the disk when the entries decode, and
`state_of_run_prefetch` what it has left there whenever it returns.

A file that is not empty is not fetched (`block_of_run_prefetch`).
-/

namespace Spkdfs

open Effects

namespace SDK

namespace Exact

variable {x : External} {net : Net} {inode : Inode} {blocks : List Bytes} {st st₁ : State}
  {path : String} {folder : Folder} {offset size i : ℕ}

/-! ## What a fetch changes -/

/-- Nothing in a directory has changed, but for the files of these indices. -/
def OnlyBlocks (is : ℕ → Prop) (st st' : State) : Prop :=
  ∀ path folder, st.tmp path = some folder → ∃ folder', st'.tmp path = some folder' ∧
    folder'.write = folder.write ∧ ∀ i, ¬ is i → folder'.block i = folder.block i

instance (is : ℕ → Prop) : IsPreorder State (OnlyBlocks is) where
  refl _ _ folder h := ⟨folder, h, rfl, fun _ _ => rfl⟩
  trans _ _ _ h₁ h₂ path folder h := by
    obtain ⟨folder₁, htmp₁, hwrite₁, hblock₁⟩ := h₁ path folder h
    obtain ⟨folder₂, htmp₂, hwrite₂, hblock₂⟩ := h₂ path folder₁ htmp₁
    exact ⟨folder₂, htmp₂, hwrite₂.trans hwrite₁, fun i hi => (hblock₂ i hi).trans (hblock₁ i hi)⟩

theorem OnlyBlocks.mono {is is' : ℕ → Prop} {st st' : State} (h : OnlyBlocks is st st')
    (himp : ∀ i, is i → is' i) : OnlyBlocks is' st st' := by
  intro path folder hfolder
  obtain ⟨folder', htmp, hwrite, hblock⟩ := h path folder hfolder
  exact ⟨folder', htmp, hwrite, fun i hi => hblock i fun his => hi (himp i his)⟩

theorem onlyBlocks_setBlock (path what : String) (index : ℕ) (data : Bytes) :
    Within (OnlyBlocks (· = index))
      (inFolder path what fun folder => folder.setBlock index data) := by
  refine within_inFolder (fun st folder hfolder p folder' hp => ?_) what
  by_cases hsame : p = path
  · subst hsame
    rw [hfolder] at hp
    cases hp
    exact ⟨_, State.tmp_setFolder _ _ _, rfl, fun i hi => Function.update_of_ne hi _ _⟩
  · exact ⟨folder', (State.tmp_setFolder_of_ne hsame _ _).trans hp, rfl, fun _ _ => rfl⟩

theorem onlyBlocks_fetchBlock (net : Net) (inode : Inode) (index : ℕ) (s : String) :
    Within (OnlyBlocks (· = index)) (fetchBlock x net inode index s) :=
  (onlyBlocks_setBlock _ _ _ _).bind fun _ => (Within.lift _).bind fun _ =>
    (onlyBlocks_setBlock _ _ _ _).bind fun _ => Within.pure _

/-! ## The blocks that are fetched -/

/-- The blocks of these indices are read, and on the disk then. -/
def withBlocks (st : State) (path : String) (blocks : List Bytes) (is : List ℕ) : State :=
  is.foldl (fun st i => st.withBlock path i (currentBlock (st.folder path).block blocks i)) st

/-- The indices of the blocks that a write fetches. -/
def prefetched (inode : Inode) (offset size : ℕ) : List ℕ :=
  (if FetchesFirst inode offset then [offset / inode.blockSize] else []) ++
    if FetchesLast inode (offset + size) (getIndexs inode.blockSize offset size) then
      [(offset + size) / inode.blockSize]
    else []

theorem mem_prefetched :
    i ∈ prefetched inode offset size ↔
      (i = offset / inode.blockSize ∧ FetchesFirst inode offset) ∨
        (i = (offset + size) / inode.blockSize ∧
          FetchesLast inode (offset + size) (getIndexs inode.blockSize offset size)) := by
  rw [prefetched, List.mem_append]
  split <;> split <;> simp_all

/-- The files of a directory after some blocks were fetched to the directory `p`. -/
def fetchedBlock (p path : String) (blocks : List Bytes) (is : List ℕ) (block : ℕ → Option Bytes)
    (i : ℕ) : Option Bytes :=
  if path = p ∧ i ∈ is then some (currentBlock block blocks i) else block i

theorem localInodeCache_withBlocks (st : State) (p : String) (blocks : List Bytes) (is : List ℕ) :
    (withBlocks st p blocks is).localInodeCache = st.localInodeCache := by
  induction is generalizing st with
  | nil => rfl
  | cons i is ih => exact ih _

/-- A block that was read is read again. -/
theorem currentBlock_setBlock (folder : Folder) (blocks : List Bytes) (j i : ℕ) :
    currentBlock (folder.setBlock j (currentBlock folder.block blocks j)).block blocks i =
      currentBlock folder.block blocks i := by
  by_cases hij : i = j
  · subst hij
    have hself : (folder.setBlock i (currentBlock folder.block blocks i)).block i =
        some (currentBlock folder.block blocks i) := Function.update_self _ _ _
    cases hcurrent : currentBlock folder.block blocks i with
    | cons byte bytes =>
      rw [hcurrent] at hself
      rw [currentBlock, hself]
    | nil =>
      rw [hcurrent] at hself
      rw [currentBlock, hself]
      simp only
      rw [currentBlock] at hcurrent
      split at hcurrent
      · cases hcurrent
      · exact hcurrent
      · exact hcurrent
  · have hother : (folder.setBlock j (currentBlock folder.block blocks j)).block i =
        folder.block i := Function.update_of_ne hij _ _
    rw [currentBlock, hother, currentBlock]

/-- Fetches change nothing but the files of the blocks. -/
theorem tmp_withBlocks (hfolder : st.tmp path = some folder) (p : String) (blocks : List Bytes)
    (is : List ℕ) :
    (withBlocks st p blocks is).tmp path =
      some ⟨fetchedBlock p path blocks is folder.block, folder.write⟩ := by
  induction is generalizing st folder with
  | nil =>
    have hnone : fetchedBlock p path blocks [] folder.block = folder.block := by
      funext i
      exact if_neg fun h => absurd h.2 (List.not_mem_nil)
    rw [hnone]
    exact hfolder
  | cons j is ih =>
    rw [withBlocks, List.foldl_cons, ← withBlocks]
    by_cases hp : path = p
    · subst hp
      have hstep : (st.withBlock path j (currentBlock (st.folder path).block blocks j)).tmp path =
          some (folder.setBlock j (currentBlock folder.block blocks j)) := by
        rw [State.withBlock, State.tmp_setFolder, State.folder_of_tmp hfolder]
      rw [ih hstep]
      congr 2
      funext i
      simp only [fetchedBlock, true_and, List.mem_cons, currentBlock_setBlock]
      by_cases hi : i ∈ is
      · rw [if_pos hi, if_pos (Or.inr hi)]
      · rw [if_neg hi]
        by_cases hij : i = j
        · rw [if_pos (Or.inl hij), hij]
          exact Function.update_self _ _ _
        · rw [if_neg (not_or.mpr ⟨hij, hi⟩)]
          exact Function.update_of_ne hij _ _
    · have hstep : (st.withBlock p j (currentBlock (st.folder p).block blocks j)).tmp path =
          some folder := by
        rw [State.withBlock, State.tmp_setFolder_of_ne hp, hfolder]
      rw [ih hstep]
      congr 2
      funext i
      simp only [fetchedBlock, hp, false_and]

/-! ## The fetches of a write that returns -/

/-- What the places of the entries answer. -/
def answers (x : External) (net : Net) (inode : Inode) : List Bytes :=
  inode.sub.map fun s => (decodeEntry x net inode s).toOption.getD []

/-- The blocks of the list that a write fetches. -/
def fetches (inode : Inode) (offset size : ℕ) : List ℕ :=
  (prefetched inode offset size).filter (· < inode.sub.length)

theorem mem_fetches {i offset size : ℕ} :
    i ∈ fetches inode offset size ↔ i ∈ prefetched inode offset size ∧ i < inode.sub.length := by
  rw [fetches, List.mem_filter, decide_eq_true_iff]

theorem run_fetchBlock_eq_ok {i : ℕ} {s : String} {block : Bytes}
    (h : (fetchBlock x net inode i s).run st = .ok block st₁) :
    ∃ folder, st.tmp inode.fullpath.text = some folder ∧ decodeEntry x net inode s = .ok block ∧
      st₁ = st.setFolder inode.fullpath.text (folder.setBlock i block) := by
  have hparts := h
  simp only [fetchBlock, run_bind_eq_ok, run_lift_eq_ok, run_inFolder_eq_ok] at hparts
  obtain ⟨_, _, ⟨folder, hfolder, rfl⟩, data, _, ⟨hdecode, rfl⟩, _⟩ := hparts
  rw [run_fetchBlock x hfolder hdecode] at h
  cases h
  exact ⟨folder, hfolder, hdecode, rfl⟩

/-- A file that is missing or empty is not read. -/
theorem run_readBlock_of_empty {i : ℕ} {s : String}
    (hempty : (st.block inode.fullpath.text i).getD [] = []) :
    (readBlock x net inode i s).run st = (fetchBlock x net inode i s).run st := by
  rw [readBlock, run_get_bind]
  cases hfile : st.block inode.fullpath.text i with
  | none => rfl
  | some data =>
    cases data with
    | nil => rfl
    | cons byte bytes =>
      rw [hfile] at hempty
      cases hempty

theorem currentBlock_of_empty {block : ℕ → Option Bytes} {i : ℕ} (hempty : (block i).getD [] = [])
    (blocks : List Bytes) : currentBlock block blocks i = blocks[i]?.getD [] := by
  rw [currentBlock]
  split
  · rename_i hfile
    rw [hfile] at hempty
    cases hempty
  · rfl
  · rfl

theorem currentBlock_of_ne_nil {block : ℕ → Option Bytes} {i : ℕ} (hne : (block i).getD [] ≠ [])
    (blocks : List Bytes) : currentBlock block blocks i = (block i).getD [] := by
  rw [currentBlock]
  split
  · rename_i hfile
    rw [hfile, Option.getD_some]
  · rename_i hfile
    rw [hfile] at hne
    exact absurd rfl hne
  · rename_i hfile
    rw [hfile] at hne
    exact absurd rfl hne

theorem getElem?_answers {i : ℕ} {s : String} {block : Bytes} (hs : inode.sub[i]? = some s)
    (hdecode : decodeEntry x net inode s = .ok block) :
    (answers x net inode)[i]?.getD [] = block := by
  rw [answers, List.getElem?_map, hs, Option.map_some, Option.getD_some, hdecode]
  rfl

/-- A block that was read is on the disk. -/
theorem state_of_run_readBlock {i : ℕ} {s : String} {block : Bytes} (hs : inode.sub[i]? = some s)
    (h : (readBlock x net inode i s).run st = .ok block st₁) :
    st₁ = withBlocks st inode.fullpath.text (answers x net inode) [i] := by
  rw [withBlocks, List.foldl_cons, List.foldl_nil]
  by_cases hempty : (st.block inode.fullpath.text i).getD [] = []
  · rw [run_readBlock_of_empty hempty] at h
    obtain ⟨folder, hfolder, hdecode, rfl⟩ := run_fetchBlock_eq_ok h
    rw [State.block_of_tmp hfolder] at hempty
    rw [State.withBlock, State.folder_of_tmp hfolder, currentBlock_of_empty hempty,
      getElem?_answers hs hdecode]
  · rw [readBlock, run_get_bind] at h
    cases hfile : st.block inode.fullpath.text i with
    | none =>
      rw [hfile] at hempty
      exact absurd rfl hempty
    | some data =>
      obtain ⟨folder, hfolder, _⟩ := Option.bind_eq_some_iff.mp hfile
      cases data with
      | nil =>
        rw [hfile] at hempty
        exact absurd rfl hempty
      | cons byte bytes =>
        rw [hfile] at h
        cases h
        rw [State.block_of_tmp hfolder] at hempty
        rw [State.folder_of_tmp hfolder, currentBlock_of_ne_nil hempty,
          ← State.block_of_tmp hfolder, hfile, Option.getD_some,
          State.withBlock_self hfolder hfile]

/-- A fetch of a block of the list reads it. -/
theorem run_fetch_eq_ok {i : ℕ} {s : String} (hs : inode.sub[i]? = some s)
    (h : (fetch x net inode (i, i + 1)).run st = .ok () st₁) :
    ∃ block, (readBlock x net inode i s).run st = .ok block st₁ := by
  rw [fetch, readBlocks] at h
  split at h
  · cases h
  · rw [Nat.add_sub_cancel_left, readLoop, hs] at h
    simp only at h
    rw [bind_assoc] at h
    obtain ⟨block, st₂, hread, h⟩ := run_bind_eq_ok.mp h
    cases h
    exact ⟨block, hread⟩

theorem state_of_run_fetch {i : ℕ} (h : (fetch x net inode (i, i + 1)).run st = .ok () st₁) :
    st₁ = withBlocks st inode.fullpath.text (answers x net inode)
      ([i].filter (· < inode.sub.length)) := by
  cases hs : inode.sub[i]? with
  | none =>
    have hge : ¬ i < inode.sub.length := Nat.not_lt.mpr (List.getElem?_eq_none_iff.mp hs)
    rw [fetch, readBlocks] at h
    split at h
    · cases h
    · rw [Nat.add_sub_cancel_left, readLoop, hs] at h
      cases h
      rw [List.filter_cons_of_neg (by simpa using hge)]
      rfl
  | some s =>
    obtain ⟨hlt, _⟩ := List.getElem?_eq_some_iff.mp hs
    obtain ⟨block, hread⟩ := run_fetch_eq_ok hs h
    rw [List.filter_cons_of_pos (by simpa using hlt)]
    exact state_of_run_readBlock hs hread

/-- What is on the disk when the fetches have returned. -/
theorem state_of_run_prefetch {offset size : ℕ}
    (h : (prefetch x net inode offset size).run st = .ok () st₁) :
    st₁ = withBlocks st inode.fullpath.text (answers x net inode) (fetches inode offset size) := by
  have hone : ∀ {c : Prop} [Decidable c] {st st₁ : State} (i : ℕ),
      (if c then fetch x net inode (i, i + 1) else pure ()).run st = .ok () st₁ →
      st₁ = withBlocks st inode.fullpath.text (answers x net inode)
        ((if c then [i] else []).filter (· < inode.sub.length)) := by
    intro c _ st st₁ i hrun
    split at hrun
    · rename_i hc
      rw [if_pos hc]
      exact state_of_run_fetch hrun
    · rename_i hc
      rw [if_neg hc]
      cases hrun
      rfl
  rw [prefetch_eq] at h
  obtain ⟨_, st₂, hfirst, hlast⟩ := run_bind_eq_ok.mp h
  rw [fetches, prefetched, List.filter_append, withBlocks, List.foldl_append]
  rw [hone _ hlast, hone _ hfirst]
  rfl

/-- The first block of a write is decoded if it is fetched and not on the disk. -/
theorem decoded_of_run_prefetch {offset size : ℕ} {s : String}
    (h : (prefetch x net inode offset size).run st = .ok () st₁)
    (hfetch : FetchesFirst inode offset) (hs : inode.sub[offset / inode.blockSize]? = some s)
    (hempty : (st.block inode.fullpath.text (offset / inode.blockSize)).getD [] = []) :
    ∃ block, decodeEntry x net inode s = .ok block := by
  rw [prefetch_eq, if_pos hfetch] at h
  obtain ⟨_, st₂, hfirst, _⟩ := run_bind_eq_ok.mp h
  obtain ⟨block, hread⟩ := run_fetch_eq_ok hs hfirst
  rw [run_readBlock_of_empty hempty] at hread
  obtain ⟨_, _, hdecode, _⟩ := run_fetchBlock_eq_ok hread
  exact ⟨block, hdecode⟩

/-- The prefetches bring files that are missing or empty, and no others. -/
theorem block_of_run_prefetch (hfolder : st.tmp path = some folder)
    (h : (prefetch x net inode offset size).run st = .ok () st₁) :
    ∃ folder₁, st₁.tmp path = some folder₁ ∧ folder₁.write = folder.write ∧
      (∀ i ∉ prefetched inode offset size, folder₁.block i = folder.block i) ∧
      ∀ i, (folder.block i).getD [] ≠ [] → folder₁.block i = folder.block i := by
  have htmp := tmp_withBlocks hfolder inode.fullpath.text (answers x net inode)
    (fetches inode offset size)
  rw [← state_of_run_prefetch h] at htmp
  refine ⟨_, htmp, rfl, fun i hi => ?_, fun i hne => ?_⟩
  · exact if_neg fun hfetch => hi (mem_fetches.mp hfetch.2).1
  · show fetchedBlock _ _ _ _ _ _ = _
    rw [fetchedBlock]
    split
    · rw [currentBlock_of_ne_nil hne]
      cases hfile : folder.block i with
      | none =>
        rw [hfile] at hne
        exact absurd rfl hne
      | some data => rfl
    · rfl

end Exact

end SDK

end Spkdfs
