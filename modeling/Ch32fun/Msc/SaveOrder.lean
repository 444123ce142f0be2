import Ch32fun.Msc.Save

/-!
# Sectors first

A host may also write the sectors of the file before its directory entry.  They meet the filter of
the cluster that was active before: they are all stored or all dropped (`Session.sectorsFirst`).
The active cluster and size come out the same in both orders, the contents of the RAM disk only if
the sectors were stored, or were there already (`save_order`).
-/

namespace Ch32fun

namespace Msc

variable {s s' s₁ s₂ : Msc} {logs logs₁ logs₂ : List (List Event)} {x dir dir' : Command}
  {xs xs' : List Command} {cl : UInt16} {f : List UInt8}

/-- A session of data writes leaves the active cluster and size alone, and above the cluster of
the file all of it is dropped. -/
theorem Session.data (h : Session s xs logs s') (hs : s.SlotInv)
    (hxs : ∀ x ∈ xs, ∃ k, x.IsData cl f k) (hcl : 2 ≤ cl.toNat)
    (hfit : clusterSector cl.toNat + 3 < 0x4000) (hf : f.length ≤ ramDiskSize) :
    s'.filePair = s.filePair ∧
      (cl.toNat < s.activeFileCluster.toNat → s'.mscRamDisk = s.mscRamDisk) := by
  induction h with
  | nil s => exact ⟨rfl, fun _ => rfl⟩
  | @cons s t s' x xs log logs hp _ ih =>
    obtain ⟨k, hx⟩ := hxs x List.mem_cons_self
    obtain ⟨hpair, hram⟩ := hp.dataWrite hs hx hcl hfit hf
    obtain ⟨hpair', hram'⟩ := ih (hp.slotInv hs) fun y hy => hxs y (List.mem_cons_of_mem _ hy)
    have hactive : t.activeFileCluster = s.activeFileCluster := congrArg Prod.fst hpair
    refine ⟨hpair'.trans hpair, fun hlt => ?_⟩
    rw [hram' (by rwa [hactive]), hram, if_neg (not_le.2 hlt)]

theorem Session.sectorsFirst (h : Session s (xs ++ [dir]) logs s')
    (hs : s.SlotInv) (hcl : 2 ≤ cl.toNat) (hfit : clusterSector cl.toNat + 3 < 0x4000)
    (hf : f.length ≤ ramDiskSize) (hdir : dir.IsDirectory cl f.length)
    (hxs : ∀ x ∈ xs, ∃ k, x.IsData cl f k) (hcover : Covers cl f xs) :
    s'.activeFileCluster = cl ∧ s'.activeFileSize.toNat = f.length ∧
      (s.activeFileCluster.toNat ≤ cl.toNat →
        ∀ i (hi : i < f.length), s'.mscRamDisk.get i = f.get ⟨i, hi⟩) ∧
      (cl.toNat < s.activeFileCluster.toNat → s'.mscRamDisk = s.mscRamDisk) := by
  obtain ⟨t, logs₁, logs₂, h₁, h₂, -⟩ := session_append h
  obtain _ | ⟨hp, hnil⟩ := h₂
  cases hnil
  obtain ⟨hram, hactive, hsize⟩ := hp.directory (h₁.slotInv hs) hdir
    (by rintro rfl; exact absurd hcl (by decide)) hf
  refine ⟨hactive, hsize, fun hle => ?_, fun hlt => ?_⟩
  · obtain ⟨-, -, hnew, -⟩ := h₁.save hs (fun x hx => .inl (hxs x hx)) hcl hfit hf hle
    rw [hram]
    refine stored_of_holds fun j hj => ?_
    obtain ⟨x, hx, k, hdata, hkj, hjk⟩ := hcover j hj
    exact hnew x hx k hdata j hkj hjk
  · rw [hram, (h₁.data hs hxs hcl hfit hf).2 hlt]

theorem Session.directoryFirst_cluster (h : Session s (dir :: xs) logs s') (hs : s.SlotInv)
    (hcl : 2 ≤ cl.toNat) (hfit : clusterSector cl.toNat + 3 < 0x4000)
    (hf : f.length ≤ ramDiskSize) (hdir : dir.IsDirectory cl f.length)
    (hxs : ∀ x ∈ xs, ∃ k, x.IsData cl f k) : s'.activeFileCluster = cl := by
  obtain _ | ⟨hp, hrest⟩ := h
  obtain ⟨-, hactive, -⟩ := hp.directory hs hdir
    (by rintro rfl; exact absurd hcl (by decide)) hf
  obtain ⟨hpair, -⟩ := hrest.data (hp.slotInv hs) hxs hcl hfit hf
  rw [← hactive]
  exact congrArg Prod.fst hpair

/-- **In which order a file may be saved.**  From a reachable state the sectors of a file are
written to its cluster and then its directory entry, or the entry first.  Both orders end with the
cluster and the size of the entry; they end with the same file in the RAM disk if and only if the
active cluster was not above that of the file, or the RAM disk held the file before. -/
theorem save_order (hr : s.Reachable) (hcl : 2 ≤ cl.toNat)
    (hfit : clusterSector cl.toNat + 3 < 0x4000) (hf : f.length ≤ ramDiskSize)
    (hdir : dir.IsDirectory cl f.length) (hxs : ∀ x ∈ xs, ∃ k, x.IsData cl f k)
    (hcover : Covers cl f xs) (hdir' : dir'.IsDirectory cl f.length)
    (hxs' : ∀ x ∈ xs', ∃ k, x.IsData cl f k) (hcover' : Covers cl f xs')
    (h₁ : Session s (xs ++ [dir]) logs₁ s₁) (h₂ : Session s (dir' :: xs') logs₂ s₂) :
    s₁.activeFileCluster = s₂.activeFileCluster ∧ s₁.activeFileSize = s₂.activeFileSize ∧
      ((∀ i, i < f.length → s₁.mscRamDisk.get i = s₂.mscRamDisk.get i) ↔
        s.activeFileCluster.toNat ≤ cl.toNat ∨
          ∀ i (hi : i < f.length), s.mscRamDisk.get i = f.get ⟨i, hi⟩) := by
  have hs := hr.slotInv
  obtain ⟨hc₁, hsize₁, hstored, hdropped⟩ := h₁.sectorsFirst hs hcl hfit hf hdir hxs hcover
  obtain ⟨hram₂, hsize₂, -⟩ :=
    h₂.directoryFirst hs hcl hfit hf hdir' (fun x hx => .inl (hxs' x hx)) hcover'
  have hc₂ := h₂.directoryFirst_cluster hs hcl hfit hf hdir' hxs'
  refine ⟨hc₁.trans hc₂.symm, UInt32.toNat_inj.1 (hsize₁.trans hsize₂.symm), ?_⟩
  constructor
  · intro heq
    by_cases hle : s.activeFileCluster.toNat ≤ cl.toNat
    · exact .inl hle
    · refine .inr fun i hi => ?_
      rw [← hdropped (not_le.1 hle), heq i hi, hram₂ i hi]
  · intro h i hi
    rw [hram₂ i hi]
    by_cases hle : s.activeFileCluster.toNat ≤ cl.toNat
    · exact hstored hle i hi
    · rw [hdropped (not_le.1 hle)]
      exact (h.resolve_left hle) i hi

/-- A script of two sectors is saved to cluster 2 in both orders, at power-up: the sectors from the
last one on before the entry, and from the first one on behind it. -/
theorem save_order_twoSectors : ∃ logs₁ s₁ logs₂ s₂,
    Session usbInit ([fillWrite 66 1 0x62, fillWrite 65 1 0x61] ++ [entryWrite 2 88 2]) logs₁ s₁ ∧
      Session usbInit [entryWrite 2 88 2, fillWrite 65 1 0x61, fillWrite 66 1 0x62] logs₂ s₂ ∧
      ∀ i, i < twoSectors.length → s₁.mscRamDisk.get i = s₂.mscRamDisk.get i := by
  have hdata : ∀ x ∈ [fillWrite 66 1 0x62, fillWrite 65 1 0x61], ∃ k, x.IsData 2 twoSectors k := by
    simp only [List.forall_mem_cons]
    exact ⟨⟨1, isData_twoSectors₁⟩, ⟨0, isData_twoSectors₀⟩, by simp⟩
  obtain ⟨logs₁, s₁, h₁⟩ := exists_session
    ([fillWrite 66 1 0x62, fillWrite 65 1 0x61] ++ [entryWrite 2 88 2]) slotInv_usbInit rfl
    (by simp only [List.cons_append, List.nil_append, List.forall_mem_cons]; decide)
  obtain ⟨logs₂, s₂, h₂⟩ := exists_session
    [entryWrite 2 88 2, fillWrite 65 1 0x61, fillWrite 66 1 0x62] slotInv_usbInit rfl
    (by simp only [List.forall_mem_cons]; decide)
  refine ⟨logs₁, s₁, logs₂, s₂, h₁, h₂, (save_order (Machine.Reachable.refl _) (by decide)
    (by decide) (by rw [length_twoSectors]; decide) isDirectory_twoSectors hdata
    (covers_twoSectors (by simp) (by simp)) isDirectory_twoSectors (fun x hx => hdata x ?_)
    (covers_twoSectors (by simp) (by simp)) h₁ h₂).2.2.2 (.inl (by decide))⟩
  exact (List.Perm.swap _ _ _).mem_iff.1 hx

/-- A file of one byte is saved to cluster 2 after the active cluster was moved to 3: with the
sector first the byte is dropped. -/
theorem save_order_dropped : ∃ s logs₁ s₁ logs₂ s₂,
    s.Reachable ∧ s.mscState = .idle ∧
      (directoryWrite 2).IsDirectory 2 1 ∧ (sectorWrite 0xFF).IsData 2 [0xFF] 0 ∧
      Session s ([sectorWrite 0xFF] ++ [directoryWrite 2]) logs₁ s₁ ∧
      Session s [directoryWrite 2, sectorWrite 0xFF] logs₂ s₂ ∧
      s₁.mscRamDisk.get 0 ≠ s₂.mscRamDisk.get 0 := by
  have hdir : (directoryWrite 2).IsDirectory 2 ([0xFF] : List UInt8).length :=
    isDirectory_directoryWrite 2
  have hdata := isData_sectorWrite 0xFF
  have hwrites : ∀ x ∈ [sectorWrite 0xFF], ∃ k, x.IsData 2 [0xFF] k := by
    intro x hx
    rw [List.mem_singleton.1 hx]
    exact ⟨0, hdata⟩
  have hdir₃ := isDirectory_directoryWrite 3
  obtain ⟨log, s, hp⟩ := exists_play_write (c := directoryCbw) slotInv_usbInit rfl
    (directoryWrite 3).data rfl rfl directoryCbw_blocks.ge
  obtain ⟨hram, hactive, -⟩ := hp.directory (x := directoryWrite 3) slotInv_usbInit hdir₃
    (by decide) (by decide)
  have hr : s.Reachable := hp.reachable (Machine.Reachable.refl _)
  obtain ⟨logs₁, s₁, h₁⟩ := exists_session ([sectorWrite 0xFF] ++ [directoryWrite 2])
    hr.slotInv hp.idle
    (by simp only [List.cons_append, List.nil_append, List.forall_mem_cons]; decide)
  obtain ⟨logs₂, s₂, h₂⟩ := exists_session [directoryWrite 2, sectorWrite 0xFF]
    hr.slotInv hp.idle (by simp only [List.forall_mem_cons]; decide)
  refine ⟨s, logs₁, s₁, logs₂, s₂, hr, hp.idle, hdir, hdata, h₁, h₂, ?_⟩
  have hdropped := (h₁.sectorsFirst hr.slotInv (by decide) (by decide)
    (by decide) hdir hwrites (covers_sectorWrite (by simp))).2.2.2 (by rw [hactive]; decide)
  have hstored := (h₂.directoryFirst hr.slotInv (by decide) (by decide) (by decide) hdir
    (fun x hx => .inl (hwrites x hx)) (covers_sectorWrite (by simp))).1 0 (by decide)
  rw [hdropped, hram, hstored]
  decide +kernel

end Msc

end Ch32fun
