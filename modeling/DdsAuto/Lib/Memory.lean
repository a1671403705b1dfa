/-!
# Blocks of bytes and the accesses made to them

A block is the list of its bytes. A program keeps a log of the ranges it
loads and stores, each with the size of the block it meant, so that staying
inside is a property of the log. What an access does outside its block is not
modelled: a load yields zeros there and a store leaves no byte.
-/

namespace DdsAuto.Memory

/-- `len` bytes from offset `off` of a block of `size` bytes. -/
inductive Access
  | load (off : Int) (len : Nat) (size : Int)
  | store (off : Int) (len : Nat) (size : Int)
  deriving DecidableEq, Repr

def Access.InBounds : Access → Prop
  | .load off len size | .store off len size => 0 ≤ off ∧ off + len ≤ size

instance (a : Access) : Decidable a.InBounds := by
  cases a <;> unfold Access.InBounds <;> infer_instance

/-- Every access of the log stays in its block. -/
def Safe (log : List Access) : Prop := ∀ a ∈ log, a.InBounds

instance (log : List Access) : Decidable (Safe log) := by unfold Safe; infer_instance

@[simp] theorem safe_nil : Safe [] := by simp [Safe]

@[simp] theorem safe_cons : Safe (a :: log) ↔ a.InBounds ∧ Safe log := by simp [Safe]

@[simp] theorem safe_append : Safe (log ++ log') ↔ Safe log ∧ Safe log' := by
  simp only [Safe, List.mem_append]
  exact ⟨fun h => ⟨fun a ha => h a (.inl ha), fun a ha => h a (.inr ha)⟩,
    fun h a ha => ha.elim (h.1 a) (h.2 a)⟩

/-- `len` bytes of the block from offset `off`. -/
def load (block : List UInt8) (off : Int) (len : Nat) : List UInt8 :=
  (List.range len).map fun i => block.getD (off.toNat + i) 0

/-- The block after `src` is stored from offset `off`. -/
def store (block : List UInt8) (off : Int) (src : List UInt8) : List UInt8 :=
  block.mapIdx fun i b => if (i : Int) < off then b else src.getD (i - off).toNat b

@[simp] theorem length_load : (load block off len).length = len := by simp [load]

@[simp] theorem length_store : (store block off src).length = block.length := by simp [store]

theorem load_eq {n : Nat} (h : n + len ≤ block.length) :
    load block n len = (block.drop n).take len := by
  apply List.ext_getElem
  · simp; omega
  · intro i hi _
    have hi : i < len := by simpa using hi
    simp [load, List.getD_eq_getElem?_getD,
      List.getElem?_eq_getElem (show n + i < block.length by omega)]

theorem load_eq_take (h : len ≤ block.length) : load block 0 len = block.take len := by
  have hload : load block (0 : Nat) len = (block.drop 0).take len :=
    load_eq (Nat.le_trans (Nat.le_of_eq (Nat.zero_add len)) h)
  rwa [List.drop_zero] at hload

theorem load_append (pre tail : List UInt8) : load (pre ++ tail) 0 pre.length = pre := by
  rw [load_eq_take (by simp), List.take_left]

theorem load_load (block : List UInt8) (h : i + n ≤ len) :
    ((load block 0 len).drop i).take n = load block i n := by
  apply List.ext_getElem
  · rw [List.length_take, List.length_drop, length_load, length_load]
    omega
  · intro k _ _
    simp [load]

theorem store_eq {n : Nat} (h : n + src.length ≤ block.length) :
    store block n src = block.take n ++ src ++ block.drop (n + src.length) := by
  apply List.ext_getElem
  · simp; omega
  · intro i hi _
    simp only [store, List.getElem_mapIdx]
    by_cases hn : i < n
    · rw [List.getElem_append_left (by simp; omega), List.getElem_append_left (by simp; omega)]
      simp [hn]
    · have hsub : ((i : Int) - n).toNat = i - n := by omega
      rw [if_neg (by omega), hsub]
      by_cases hs : i < n + src.length
      · rw [List.getElem_append_left (by simp; omega), List.getElem_append_right (by simp; omega)]
        simp only [List.length_take, Nat.min_eq_left (show n ≤ block.length by omega)]
        simp [List.getD_eq_getElem?_getD, show i - n < src.length by omega]
      · rw [List.getElem_append_right (by simp; omega)]
        simp only [List.length_append, List.length_take,
          Nat.min_eq_left (show n ≤ block.length by omega), List.getElem_drop]
        rw [List.getD_eq_getElem?_getD, List.getElem?_eq_none (by omega), Option.getD_none]
        congr 1
        omega

/-- A store past the end of a block leaves there what fits. -/
theorem store_take (block src : List UInt8) (off : Int) (k : Nat) :
    store (block.take k) off src = (store block off src).take k := by
  apply List.ext_getElem
  · simp
  · intro i _ _
    simp only [store, List.getElem_mapIdx, List.getElem_take]

theorem take_store {n : Nat} (h : n + src.length ≤ block.length) :
    (store block n src).take (n + src.length) = block.take n ++ src := by
  have hlen : (block.take n ++ src).length = n + src.length := by simp; omega
  rw [store_eq h, ← hlen, List.take_left]

theorem take_store_zero (block : List UInt8) (h : src.length ≤ block.length) :
    (store block 0 src).take src.length = src := by
  have ht := take_store (n := 0) (by simpa using h)
  simpa using ht

theorem load_store (block : List UInt8) (h : src.length ≤ block.length) :
    load (store block 0 src) 0 src.length = src := by
  rw [load_eq_take (by rwa [length_store]), take_store_zero block h]

theorem load_store_at {n : Nat} (h : n + src.length ≤ block.length) :
    load (store block n src) n src.length = src := by
  have hlen : (block.take n).length = n := List.length_take_of_le (by omega)
  rw [load_eq (by rwa [length_store]), store_eq h, List.append_assoc, List.drop_left' hlen,
    List.take_left]

theorem take_store_before {n : Nat} (block src : List UInt8) :
    (store block n src).take n = block.take n := by
  apply List.ext_getElem
  · simp
  · intro i hi _
    have hi : i < n := by simp at hi; omega
    simp only [List.getElem_take, store, List.getElem_mapIdx]
    rw [if_pos (by omega)]

theorem store_append (pre tail src : List UInt8) (h : src.length ≤ tail.length) :
    store (pre ++ tail) pre.length src = pre ++ src ++ tail.drop src.length := by
  rw [store_eq (by simp; omega), List.take_left, ← List.drop_drop, List.drop_left]

end DdsAuto.Memory
