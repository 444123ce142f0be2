import Ch32fun.Data.Block
import Mathlib.Tactic.SplitIfs

/-!
# The configuration descriptor

What `usb_config.h` tells the host about the device: a sequence of descriptors, each of which begins
with its length.

* `configDescriptors` : the descriptors of the configuration; `configDescriptor` : their bytes.
* `splitDescriptors` : how a host finds them in the bytes, checked in
  `splitDescriptors_flatten`.
* `maxPacketSize` : the packet size that a host reads for an endpoint.
-/

namespace Ch32fun

/-- The parts of `config_descriptor`. -/
def configDescriptors : List (List UInt8) :=
  [[0x09, 0x02, 0x62, 0x00, 0x03, 0x01, 0x00, 0x80, 0x32],  -- configuration, 98 bytes
    [0x08, 0x0B, 0x00, 0x02, 0x02, 0x02, 0x01, 0x00],        -- interface association of the CDC
    [0x09, 0x04, 0x00, 0x00, 0x01, 0x02, 0x02, 0x01, 0x00],  -- interface 0: CDC control
    [0x05, 0x24, 0x00, 0x10, 0x01],                          -- CDC 1.10
    [0x05, 0x24, 0x01, 0x00, 0x01],                          -- call management
    [0x04, 0x24, 0x02, 0x02],                                -- ACM
    [0x05, 0x24, 0x06, 0x00, 0x01],                          -- union
    [0x07, 0x05, 0x81, 0x03, 0x08, 0x00, 0xFF],              -- endpoint 1: interrupt IN
    [0x09, 0x04, 0x01, 0x00, 0x02, 0x0A, 0x00, 0x00, 0x00],  -- interface 1: CDC data
    [0x07, 0x05, 0x02, 0x02, 0x40, 0x00, 0x01],              -- endpoint 2: bulk OUT
    [0x07, 0x05, 0x83, 0x02, 0x40, 0x00, 0x01],              -- endpoint 3: bulk IN
    [0x09, 0x04, 0x02, 0x00, 0x02, 0x08, 0x06, 0x50, 0x00],  -- interface 2: mass storage
    [0x07, 0x05, 0x06, 0x02, 0x40, 0x00, 0x01],              -- endpoint 6: bulk OUT
    [0x07, 0x05, 0x85, 0x02, 0x40, 0x00, 0x01]]              -- endpoint 5: bulk IN

/-- `config_descriptor`. -/
def configDescriptor : List UInt8 := configDescriptors.flatten

/-- The descriptors in a sequence of bytes, at most `n`. -/
def splitDescriptors : ℕ → List UInt8 → Option (List (List UInt8))
  | _, [] => some []
  | 0, _ :: _ => none
  | n + 1, b :: bs =>
    if b = 0 ∨ bs.length + 1 < b.toNat then none
    else (splitDescriptors n ((b :: bs).drop b.toNat)).map ((b :: bs).take b.toNat :: ·)

theorem splitDescriptors_flatten {ds : List (List UInt8)} {n : ℕ} (hn : ds.length ≤ n)
    (h : ∀ d ∈ ds, d.head?.map UInt8.toNat = some d.length) :
    splitDescriptors n ds.flatten = some ds := by
  induction ds generalizing n with
  | nil => cases n <;> rfl
  | cons d ds ih =>
    have hd := h d List.mem_cons_self
    obtain ⟨n, rfl⟩ : ∃ k, n = k + 1 := ⟨n - 1, by rw [List.length_cons] at hn; omega⟩
    have htail := ih (Nat.le_of_succ_le_succ hn) fun d hd => h d (List.mem_cons_of_mem _ hd)
    cases d with
    | nil => cases hd
    | cons b bs =>
      have hb : b.toNat = (b :: bs).length := Option.some.inj hd
      have hne : b ≠ 0 := by
        rintro rfl
        cases hb
      rw [List.flatten_cons, List.cons_append, splitDescriptors, if_neg, ← List.cons_append,
        List.take_left' hb.symm, List.drop_left' hb.symm, htail]
      · rfl
      · rw [List.length_append, not_or]
        rw [List.length_cons] at hb
        exact ⟨hne, by omega⟩

/-- `wMaxPacketSize` of the endpoint with this address, found in the descriptors of the
configuration. -/
def maxPacketSize (address : UInt8) : Option ℕ := do
  let ds ← splitDescriptors configDescriptor.length configDescriptor
  let d ← ds.find? fun d => d.getD 1 0 = 0x05 ∧ d.getD 2 0 = address
  return (le16 (d.getD · 0) 4).toNat

theorem maxPacketSize_eq (address : UInt8) : maxPacketSize address =
    (configDescriptors.find? fun d => d.getD 1 0 = 0x05 ∧ d.getD 2 0 = address).map
      fun d => (le16 (d.getD · 0) 4).toNat := by
  have hsplit : splitDescriptors configDescriptor.length configDescriptor =
      some configDescriptors := splitDescriptors_flatten (by decide) (by decide)
  rw [maxPacketSize, hsplit, Option.map_eq_bind]
  rfl

end Ch32fun
