import Ch32fun.Machine.Refine
import Ch32fun.Mem.Register
import Ch32fun.Mem.Script

/-!
# Registers and memory apart

A script uses `ch32fun.RAM`, `ch32fun.ch5xx_flash` and its views on the one hand, the registers on
the other, and all of them are accesses to one address space.

* `Arena.low` : what the calls on the memory can see of the address space.
* `accessScript` : calls of both kinds, in any order, and what the hardware does to registers.
* `registers_apart` : when all registers lie above RAM, the calls of each kind have the outcomes
  that they have alone.
-/

namespace Ch32fun

open Machine

/-! ### What the calls on the memory see -/

namespace Arena

variable {m m' : Arena} {v : View} {index : RamIndex} {data : ScriptData} {j n : ℕ}

/-- The arena without the bytes above the flash, those of RAM apart. -/
def low (m : Arena) : Arena :=
  { m with rest := fun x => if x < Region.flash.size then m.rest x else 0 }

theorem low_read (m : Arena) (hj : j < v.len) : m.low.read v j = m.read v j := by
  have hfits := v.fits
  have hram := ramBytes_eq
  unfold read get
  split_ifs with h
  · rfl
  · have hlt : v.region.base + v.off + j < Region.flash.size := by
      cases hr : v.region with
      | flash =>
        rw [hr] at hfits
        simp only [Region.base, Region.size] at hfits ⊢
        omega
      | ram =>
        rw [hr] at hfits h
        simp only [Region.base, Region.size] at hfits h
        omega
    exact if_pos hlt

theorem low_fill {src : Arena → ℕ → UInt8} (hsrc : ∀ m, ∀ i < n, src (low m) i = src m i)
    (m : Arena) (v : View) : m.low.fill v src n = (m.fill v src n).low := by
  induction n with
  | zero => rfl
  | succ n ih =>
    rw [fill, fill, ih fun m i hi => hsrc m i (Nat.lt_succ_of_lt hi), hsrc _ n n.lt_succ_self]
    rfl

theorem low_source (m : Arena) (data : ScriptData) : m.low.source data = m.source data := by
  cases data <;> rfl

theorem source_low {src : ℕ × (Arena → ℕ → UInt8)} (h : m.source data = some (some src))
    (m' : Arena) : ∀ i < src.1, src.2 m'.low i = src.2 m' i := by
  cases data with
  | int x => cases h
  | bytes l =>
    cases h
    exact fun _ _ => rfl
  | view k =>
    obtain ⟨v, -, he⟩ := Option.map_eq_some_iff.1 h
    cases he
    exact fun i hi => m'.low_read hi

theorem view_len (h : index.view = .ok v) (hs : index.isSlice = false) : v.len = 1 := by
  cases index with
  | slice s e step => cases hs
  | int i =>
    rw [RamIndex.view] at h
    split_ifs at h
    cases h
    rfl

theorem flashView_len {a k : ℤ} (h : flashView a k = .ok v) : v.len = k.toNat := by
  unfold flashView at h
  split_ifs at h
  cases h
  rfl

/-- **A call does not see the rest**, and does not change it. -/
theorem low_call (m : Arena) (c : MemCall) :
    m.low.call c = (m.call c).map fun x => (x.1.low, x.2) := by
  cases c with
  | load index =>
    change some (m.low.load index) = some ((m.load index).1.low, (m.load index).2)
    unfold load
    cases hv : index.view with
    | error e => rfl
    | ok v =>
      dsimp only
      cases hs : index.isSlice with
      | true => rfl
      | false =>
        have hlen := view_len hv hs
        simp only [Bool.false_eq_true, if_false]
        rw [m.low_read (show 0 < v.len by omega)]
  | delete index =>
    change some (m.low.delete index) = some ((m.delete index).1.low, (m.delete index).2)
    unfold delete
    cases index.view <;> rfl
  | store index data =>
    change m.low.store index data = (m.store index data).map _
    unfold store
    rw [low_source, Option.map_map]
    cases hsrc : m.source data with
    | none => rfl
    | some src =>
      simp only [Option.map_some, Function.comp, Option.some.injEq]
      cases index.view with
      | error e => rfl
      | ok v =>
        dsimp only
        cases hs : index.isSlice with
        | true =>
          simp only [if_true]
          cases src with
          | none => rfl
          | some src =>
            unfold storeSlice
            dsimp only
            split_ifs with hne
            · rfl
            · rw [low_fill fun m' i hi => source_low hsrc m' i (by omega)]
        | false =>
          simp only [Bool.false_eq_true, if_false]
          cases data <;> rfl
  | flashRead addr len =>
    change some (m.low.flashRead addr len) =
      some ((m.flashRead addr len).1.low, (m.flashRead addr len).2)
    unfold flashRead
    cases hv : flashView addr.toInt (len.elim 1 Int32.toInt) with
    | error e => rfl
    | ok v =>
      dsimp only
      cases len with
      | some len => rfl
      | none =>
        have hlen : v.len = 1 := flashView_len hv
        simp only [if_true]
        rw [m.low_read (show 0 < v.len by omega)]
  | flashWrite addr data =>
    change m.low.flashWrite addr data = (m.flashWrite addr data).map _
    unfold flashWrite
    rw [low_source, Option.map_map]
    cases m.source data with
    | none => rfl
    | some src =>
      simp only [Option.map_some, Function.comp, Option.some.injEq]
      cases flashView addr.toInt (src.elim 4 fun x => (x.1 : ℤ)) <;> rfl
  | viewLoad k j =>
    change m.low.views[k]?.map _ = (m.views[k]?.map _).map _
    rw [Option.map_map]
    change m.views[k]?.map _ = _
    cases m.views[k]? with
    | none => rfl
    | some v =>
      simp only [Option.map_some, Function.comp]
      split_ifs with hj
      · rw [m.low_read hj]
      · rfl

end Arena

/-! ### Scripts on the same memory below the registers -/

section Below

variable {s s' t : Scripted} {m m' m₁ : Arena} {c : MemCall} {o : List Outcome} {k : ℕ}

theorem Shows.views_none (h : Shows s m) (hn : s.views[k]? = none) : m.views[k]? = none := by
  rw [List.getElem?_eq_none_iff] at hn ⊢
  rwa [← h.views.length_eq]

theorem Shows.call_none (h : Shows s m) (hn : s.call c = none) : m.call c = none := by
  have hsource : ∀ data, (∃ k, data = .view k ∧ s.views[k]? = none) → m.source data = none := by
    rintro data ⟨k, rfl, hk⟩
    exact Option.map_eq_none_iff.2 (h.views_none hk)
  cases c with
  | load _ | delete _ | flashRead _ _ => cases hn
  | store index data =>
    have hv : s.value data = none := Option.map_eq_none_iff.1 hn
    refine Option.map_eq_none_iff.2 (hsource data ?_)
    cases data with
    | int _ | bytes _ => cases hv
    | view k => exact ⟨k, rfl, Option.map_eq_none_iff.1 hv⟩
  | flashWrite addr data =>
    have hv : s.flashData data = none := Option.map_eq_none_iff.1 hn
    refine Option.map_eq_none_iff.2 (hsource data ?_)
    cases data with
    | int _ | bytes _ => cases hv
    | view k => exact ⟨k, rfl, Option.map_eq_none_iff.1 hv⟩
  | viewLoad k j => exact Option.map_eq_none_iff.2 (h.views_none (Option.map_eq_none_iff.1 hn))

/-- A call on the address space is one on the arena. -/
theorem Shows.call (h : Shows s m) (hf : c.Fits) (hst : s.call c = some (s', o)) :
    ∃ m', m.call c = some (m', o) ∧ Shows s' m' := by
  obtain ⟨m', hrun, hs⟩ := simulates_arena.step h hf hst
  rw [List.flatMap_singleton'] at hrun
  obtain ⟨m₁, o₁, o₂, -, hm, hnil, rfl⟩ := Run.cons_iff.1 hrun
  obtain ⟨rfl, rfl⟩ := Run.nil_iff.1 hnil
  exact ⟨m', by rwa [List.append_nil], hs⟩

/-- A call on the arena is one on the address space. -/
theorem Shows.call_back (h : Shows s m) (hf : c.Fits) (hm : m.call c = some (m', o)) :
    ∃ s', s.call c = some (s', o) ∧ Shows s' m' := by
  cases hst : s.call c with
  | none => rw [h.call_none hst] at hm; cases hm
  | some x =>
    obtain ⟨m₁, hm₁, hs⟩ := h.call hf (show s.call c = some (x.1, x.2) from hst)
    rw [hm] at hm₁
    cases hm₁
    exact ⟨x.1, rfl, hs⟩

/-- The scripts have the same views, and the same bytes in RAM and below. -/
def Below (s t : Scripted) : Prop := ∃ m m', Shows s m ∧ Shows t m' ∧ m.low = m'.low

theorem Below.call (h : Below s t) (hf : c.Fits) (hst : s.call c = some (s', o)) :
    ∃ t', t.call c = some (t', o) ∧ Below s' t' := by
  obtain ⟨m, m', hs, ht, hlow⟩ := h
  obtain ⟨m₁, hm₁, hs₁⟩ := hs.call hf hst
  have hcall := m'.low_call c
  rw [← hlow, m.low_call, hm₁] at hcall
  obtain ⟨⟨m₂, o'⟩, hm₂, he⟩ := Option.map_eq_some_iff.1 hcall.symm
  obtain ⟨hlow', rfl⟩ := Prod.mk.inj he
  obtain ⟨t', ht', hs₂⟩ := ht.call_back hf hm₂
  exact ⟨t', ht', m₁, m₂, hs₁, hs₂, hlow'.symm⟩

theorem Below.mem (h : Below s t) {a : UInt32} (ha : a.toNat < ramEnd.toNat) :
    t.mem a = s.mem a := by
  obtain ⟨m, m', hs, ht, hlow⟩ := h
  have hram := congrArg Arena.ram hlow
  change m.ram = m'.ram at hram
  have hrest := congrFun (congrArg Arena.rest hlow) a.toNat
  rw [ramEnd_toNat] at ha
  rw [← s.mem.nat_toNat, ← t.mem.nat_toNat, hs.mem, ht.mem, Arena.get, Arena.get, hram]
  split_ifs with hin
  · rfl
  · have hflash : a.toNat < Region.flash.size := by
      simp only [Region.base, Region.size, ramBytes] at hin ⊢
      omega
    simp only [Arena.low, if_pos hflash] at hrest
    exact hrest.symm

theorem Below.views (h : Below s t) : t.views = s.views := by
  obtain ⟨m, m', hs, ht, hlow⟩ := h
  have hmine := hs.views
  have hviews := congrArg Arena.views hlow
  change m.views = m'.views at hviews
  rw [hviews] at hmine
  -- an address and a length are known from the view that they stand for
  have hright : Relator.RightUnique fun (v : View) (p : UInt32 × UInt32) => Names p v := by
    rintro v p q ⟨h₁, h₂⟩ ⟨h₁', h₂'⟩
    exact Prod.ext (UInt32.toNat_inj.1 (h₁.trans h₁'.symm)) (UInt32.toNat_inj.1 (h₂.trans h₂'.symm))
  exact List.right_unique_forall₂' hright ht.views.flip hmine.flip

theorem Below.set_above (h : Below s t) {mem : Memory}
    (hmem : ∀ a : UInt32, a.toNat < ramEnd.toNat → mem a = s.mem a) :
    Below { s with mem } t := by
  obtain ⟨m, m', hs, ht, hlow⟩ := h
  rw [ramEnd_toNat] at hmem
  have hnat : ∀ x < 0x20003000, mem.nat x = m.get x := by
    intro x hx
    rw [← hs.mem, Memory.nat, Memory.nat, if_pos (by omega), if_pos (by omega), hmem]
    rw [UInt32.toNat_ofNat']
    omega
  refine ⟨{ m with rest := mem.nat }, m', ⟨?_, hs.views⟩, ht, ?_⟩
  · funext x
    unfold Arena.get
    split_ifs with hx
    · have hx' := hnat x (by simp only [Region.base, ramBytes] at hx; omega)
      rw [hx', Arena.get, if_pos hx]
    · rfl
  · rw [← hlow, Arena.low, Arena.low]
    congr 1
    funext x
    split_ifs with hx
    · have hx' := hnat x (by simp only [Region.size] at hx; omega)
      change mem.nat x = m.rest x
      rw [hx', Arena.get, if_neg]
      simp only [Region.size, Region.base] at hx ⊢
      omega
    · rfl

theorem Shows.call_above (h : Shows s m) (hf : c.Fits) (hst : s.call c = some (s', o))
    {a : UInt32} (ha : ramEnd.toNat ≤ a.toNat) : s'.mem a = s.mem a := by
  obtain ⟨m', hm, hs⟩ := h.call hf hst
  have hout : ¬ (Region.ram.base ≤ a.toNat ∧ a.toNat < Region.ram.base + ramBytes) := by
    rw [ramEnd_toNat] at ha
    simp only [Region.base, ramBytes]
    omega
  rw [← s'.mem.nat_toNat, ← s.mem.nat_toNat, h.mem, hs.mem, Arena.get, Arena.get, if_neg hout,
    if_neg hout, Arena.call_rest hm]

end Below

/-! ### Registers above RAM -/

section Above

variable {ν : Type} {mem mem' : Memory} {reg : RegEntry ν} {a : UInt32}

theorem RegEntry.Covers.above (h : reg.Covers a) (hlow : ramEnd.toNat ≤ reg.addr.toNat)
    (hhigh : reg.addr.toNat + reg.width.bytes ≤ 2 ^ 32) : ramEnd.toNat ≤ a.toNat := by
  have ha := congrArg UInt32.toNat (reg.add_place a)
  have hplace : reg.place a < reg.width.bytes := h
  rw [UInt32.toNat_add, UInt32.toNat_ofNat'] at ha
  rw [ramEnd_toNat] at hlow ⊢
  omega

/-- Memories that agree above RAM, where the registers are. -/
def SameAbove (mem mem' : Memory) : Prop := ∀ a : UInt32, ramEnd.toNat ≤ a.toNat → mem a = mem' a

theorem SameAbove.read (h : SameAbove mem mem') (hlow : ramEnd.toNat ≤ reg.addr.toNat)
    (hhigh : reg.addr.toNat + reg.width.bytes ≤ 2 ^ 32) : reg.read mem = reg.read mem' := by
  have hbyte : ∀ k < reg.width.bytes, mem.from' reg.addr (0 + k) = mem'.from' reg.addr (0 + k) := by
    intro k hk
    refine h _ ?_
    rw [ramEnd_toNat] at hlow ⊢
    rw [UInt32.toNat_add, UInt32.toNat_ofNat']
    omega
  obtain ⟨name, addr, width⟩ := reg
  cases width with
  | w32 => exact le32_congr hbyte
  | w16 => exact congrArg UInt16.toUInt32 (le16_congr hbyte)
  | w8 =>
    have hfirst := hbyte 0 Nat.one_pos
    change mem (addr + UInt32.ofNat 0) = mem' (addr + UInt32.ofNat 0) at hfirst
    rw [show UInt32.ofNat 0 = 0 from rfl, UInt32.add_zero] at hfirst
    exact congrArg UInt8.toUInt32 hfirst

end Above

/-! ### Calls of both kinds -/

/-- A call on the memory, or what happens to the registers. -/
inductive AccessInput (ν α : Type)
  | mem (c : MemCall)
  | reg (i : RegInput ν α)

/-- What comes of it. -/
inductive AccessOutcome (α ε : Type)
  | mem (o : Outcome)
  | reg (o : AttrOutcome α ε)

section Access

variable {ν α ε : Type}

/-- The calls on the memory. -/
def AccessInput.memPart : AccessInput ν α → List MemCall
  | mem c => [c]
  | reg _ => []

/-- What happens to the registers. -/
def AccessInput.regPart : AccessInput ν α → List (RegInput ν α)
  | mem _ => []
  | reg i => [i]

/-- The outcomes of the calls on the memory. -/
def AccessOutcome.memPart : AccessOutcome α ε → List Outcome
  | mem o => [o]
  | reg _ => []

/-- The outcomes of the calls on the registers. -/
def AccessOutcome.regPart : AccessOutcome α ε → List (AttrOutcome α ε)
  | mem _ => []
  | reg o => [o]

section Parts

variable (l : List Outcome) (l' : List (AttrOutcome α ε))

theorem memPart_mem : (l.map
    (AccessOutcome.mem : Outcome → AccessOutcome α ε)).flatMap AccessOutcome.memPart = l := by
  rw [List.flatMap_map]
  exact List.flatMap_singleton' l

theorem memPart_reg : (l'.map AccessOutcome.reg).flatMap AccessOutcome.memPart = [] := by
  rw [List.flatMap_map]
  exact List.flatMap_eq_nil_iff.2 fun _ _ => rfl

theorem regPart_mem : (l.map
    (AccessOutcome.mem : Outcome → AccessOutcome α ε)).flatMap AccessOutcome.regPart = [] := by
  rw [List.flatMap_map]
  exact List.flatMap_eq_nil_iff.2 fun _ _ => rfl

theorem regPart_reg : (l'.map AccessOutcome.reg).flatMap AccessOutcome.regPart = l' := by
  rw [List.flatMap_map]
  exact List.flatMap_singleton' l'

end Parts

/-- The objects of a call fit into the address space, and the hardware changes nothing in RAM or
below. -/
def AccessInput.Fits : AccessInput ν α → Prop
  | mem c => c.Fits
  | reg (.call _) => True
  | reg (.hardware f) => ∀ a : UInt32, a.toNat < ramEnd.toNat → f a = none

variable [DecidableEq ν] (P : RegisterEnv ν α ε)

/-- A script at work on the memory and on the registers. -/
def accessScript : Machine Scripted (AccessInput ν α) (AccessOutcome α ε) where
  step s
    | .mem c => (s.call c).map fun x => (x.1, x.2.map .mem)
    | .reg i =>
      ((registerMachine P).step s.mem i).map fun x => ({ s with mem := x.1 }, x.2.map .reg)

/-- Every register lies above RAM, and does not reach beyond the last address. -/
def RegisterEnv.AboveRam : Prop := ∀ o name reg, P.reg o name = some reg →
  ramEnd.toNat ≤ reg.addr.toNat ∧ reg.addr.toNat + reg.width.bytes ≤ 2 ^ 32

variable {P} {mem mem' mem₁ : Memory} {a : UInt32} {i : RegInput ν α}
  {os : List (AttrOutcome α ε)}

/-- What happens to the registers leaves RAM and what lies below it alone. -/
theorem register_below (hP : P.AboveRam) (hf : (AccessInput.reg i).Fits)
    (hst : (registerMachine P).step mem i = some (mem₁, os)) (ha : a.toNat < ramEnd.toNat) :
    mem₁ a = mem a := by
  suffices hnone : P.written a i = none by
    rw [register_step hst, hnone]
    rfl
  cases i with
  | hardware f => exact hf a ha
  | call c =>
    rw [RegisterEnv.written]
    cases hs : P.stored c with
    | none => rfl
    | some x =>
      obtain ⟨hlow, hhigh⟩ := hP _ _ x.1 (RegisterEnv.reg_of_stored hs)
      rw [Option.bind_some, if_neg fun hc => ?_]
      exact absurd (hc.above hlow hhigh) (Nat.not_le.2 ha)

/-- **What happens to the registers** has the same outcome on memories that agree above RAM. -/
theorem SameAbove.step (h : SameAbove mem mem') (hP : P.AboveRam)
    (hst : (registerMachine P).step mem i = some (mem₁, os)) :
    ∃ mem₁', (registerMachine P).step mem' i = some (mem₁', os) ∧ SameAbove mem₁ mem₁' := by
  obtain ⟨mem₁', hst'⟩ : ∃ mem₁', (registerMachine P).step mem' i = some (mem₁', os) := by
    cases i with
    | hardware f =>
      cases hst
      exact ⟨_, rfl⟩
    | call c =>
      have hout : (P.call mem c).2 = (P.call mem' c).2 := by
        refine RegisterEnv.call_snd_congr fun reg hreg => ?_
        obtain ⟨hlow, hhigh⟩ := hP _ _ reg hreg
        exact h.read hlow hhigh
      cases hst
      rw [hout]
      exact ⟨_, rfl⟩
  refine ⟨mem₁', hst', fun a ha => ?_⟩
  rw [register_step hst, register_step hst', h a ha]

/-- **The calls on the memory do not see the registers.** -/
theorem simulates_memory (hP : P.AboveRam) : Simulates (accessScript P) memScript
    (fun _ i => i.Fits) (fun _ c => c.Fits) Below AccessInput.memPart AccessOutcome.memPart where
  step := by
    intro s t i s' o h hf hst
    cases i with
    | mem c =>
      obtain ⟨⟨s₁, o₁⟩, hs, he⟩ := Option.map_eq_some_iff.1 hst
      obtain ⟨rfl, rfl⟩ := Prod.mk.inj he
      obtain ⟨t', ht, h'⟩ := h.call hf hs
      refine ⟨t', ?_, h'⟩
      rw [memPart_mem]
      exact .single hf ht
    | reg i =>
      obtain ⟨⟨mem₁, o₁⟩, hs, he⟩ := Option.map_eq_some_iff.1 hst
      obtain ⟨rfl, rfl⟩ := Prod.mk.inj he
      refine ⟨t, ?_, h.set_above fun a ha => register_below hP hf hs ha⟩
      rw [memPart_reg]
      exact .nil t

/-- **What happens to the registers does not depend on the memory.** -/
theorem simulates_registers (hP : P.AboveRam) : Simulates (accessScript P) (registerMachine P)
    (fun _ i => i.Fits) Free (fun s mem => (∃ m, Shows s m) ∧ SameAbove s.mem mem)
    AccessInput.regPart AccessOutcome.regPart where
  step := by
    rintro s mem i s' o ⟨⟨m, hs⟩, hsame⟩ hf hst
    cases i with
    | mem c =>
      obtain ⟨⟨s₁, o₁⟩, hst', he⟩ := Option.map_eq_some_iff.1 hst
      obtain ⟨rfl, rfl⟩ := Prod.mk.inj he
      obtain ⟨m', -, hs'⟩ := hs.call hf hst'
      refine ⟨mem, ?_, ⟨m', hs'⟩, fun a ha => (hs.call_above hf hst' ha).trans (hsame a ha)⟩
      rw [regPart_mem]
      exact .nil mem
    | reg i =>
      obtain ⟨⟨mem₁, o₁⟩, hst', he⟩ := Option.map_eq_some_iff.1 hst
      obtain ⟨rfl, rfl⟩ := Prod.mk.inj he
      obtain ⟨mem', hmem', hsame'⟩ := hsame.step hP hst'
      have hself : Below s s := ⟨m, m, hs, hs, rfl⟩
      obtain ⟨m', -, hs', -⟩ := hself.set_above fun a ha => register_below hP hf hst' ha
      refine ⟨mem', ?_, ⟨m', hs'⟩, hsame'⟩
      rw [regPart_reg]
      exact .single trivial hmem'

variable {as : List (AccessInput ν α)} {log : List (AccessOutcome α ε)} {s' : Scripted}

/-- **Registers and memory apart.**  A script makes calls of both kinds in any order, with whatever
the hardware does to registers between them, and all registers lie above RAM.  The calls on the
memory have the outcomes that they have without the rest, and leave the same views, and the same
bytes in RAM and below; the calls on the registers have the outcomes that they have without the
calls on the memory, and leave the same bytes above RAM. -/
theorem registers_apart (hP : P.AboveRam)
    (h : (accessScript P).Run (fun _ i => i.Fits) ⟨mem, []⟩ as log s') :
    (∃ t, memScript.Run (fun _ c => c.Fits) ⟨mem, []⟩ (as.flatMap AccessInput.memPart)
        (log.flatMap AccessOutcome.memPart) t ∧ t.views = s'.views ∧
        ∀ a : UInt32, a.toNat < ramEnd.toNat → t.mem a = s'.mem a) ∧
      ∃ mem', (registerMachine P).Run Free mem (as.flatMap AccessInput.regPart)
        (log.flatMap AccessOutcome.regPart) mem' ∧
        ∀ a : UInt32, ramEnd.toNat ≤ a.toNat → mem' a = s'.mem a := by
  have hs := shows_ofMemory mem
  obtain ⟨t, hrun, hbelow⟩ := (simulates_memory hP).run
    (show Below ⟨mem, []⟩ ⟨mem, []⟩ from ⟨_, _, hs, hs, rfl⟩) h
  obtain ⟨mem', hrun', -, hsame⟩ := (simulates_registers hP).run
    (show (∃ m, Shows ⟨mem, []⟩ m) ∧ SameAbove mem mem from ⟨⟨_, hs⟩, fun _ _ => rfl⟩) h
  exact ⟨⟨t, hrun, hbelow.views, fun a ha => hbelow.mem ha⟩, mem', hrun',
    fun a ha => (hsame a ha).symm⟩

end Access

theorem twoNames_aboveRam : twoNames.AboveRam := by
  intro o name reg h
  have hmem : reg ∈ twoNames.table o := List.mem_of_find?_eq_some h
  have haddr : ∀ o, ∀ reg ∈ twoNames.table o, ramEnd.toNat ≤ reg.addr.toNat ∧
      reg.addr.toNat + reg.width.bytes ≤ 2 ^ 32 := by
    intro o
    cases o <;> decide +kernel
  exact haddr o reg hmem

/-- A byte of RAM and a register, stored and read in turn. -/
theorem registers_apart_turns : ∃ log s', (accessScript twoNames).Run (fun _ i => i.Fits)
    ⟨fun _ => 0, []⟩ [.mem (.load (.slice 0 2 none)), .reg (.call ⟨.ch5xx, "R8_X1", .store 7⟩),
      .mem (.store (.int 1) (.int 300)), .mem (.viewLoad 0 1),
      .reg (.call ⟨.isler, "X", .load⟩)] log s' ∧
    ∃ mem', (registerMachine twoNames).Run Free (fun _ => 0)
      [.call ⟨.ch5xx, "R8_X1", .store 7⟩, .call ⟨.isler, "X", .load⟩]
      (log.flatMap AccessOutcome.regPart) mem' ∧ mem' 0x40001001 = s'.mem 0x40001001 := by
  have h : (accessScript twoNames).Run (fun _ i => i.Fits) ⟨fun _ => 0, []⟩
      [.mem (.load (.slice 0 2 none)), .reg (.call ⟨.ch5xx, "R8_X1", .store 7⟩),
        .mem (.store (.int 1) (.int 300)), .mem (.viewLoad 0 1),
        .reg (.call ⟨.isler, "X", .load⟩)] _ _ :=
    .cons trivial rfl (.cons trivial rfl (.cons trivial rfl (.cons trivial rfl
      (.single trivial rfl))))
  obtain ⟨-, mem', hrun, hmem⟩ := registers_apart twoNames_aboveRam h
  exact ⟨_, _, h, mem', hrun, hmem 0x40001001 (by decide)⟩

end Ch32fun
