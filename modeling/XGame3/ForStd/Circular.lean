/-!
# Circular byte ranges with raw positions

A circular buffer of `M` cells is addressed by raw positions in `[0, M]`: `M`
and `0` name the same cell but are different values.  Moving forward keeps a
position that lands exactly on `M` (`advance`), so two positions that were
moved by the same amount from the same start stay equal, and the number of
cells between them can be read off the raw values (`distance_advance`).

`readAt` and `writeAt` transfer a run of cells starting at a raw position,
across the end where needed.  Key facts:

* `readAt_add`         a long read is two consecutive reads
* `readAt_writeAt`     a read returns what was written
* `readAt_writeAt_advance`  a write past a run leaves the run alone
-/

namespace Circular

variable {α : Type} {M p n k : Nat}

/-- The raw position `n` cells after `p`. -/
def advance (M p n : Nat) : Nat := if p + n ≤ M then p + n else p + n - M

/-- The cell holding the `k`-th element of a run that starts at `p`. -/
def slot (M p k : Nat) : Nat := if p + k < M then p + k else p + k - M

/-- The number of cells from raw position `r` up to raw position `w`. -/
def distance (M r w : Nat) : Nat := if r ≤ w then w - r else w + M - r

/-- The `n` cells starting at raw position `p`. -/
def readAt (mem : Nat → α) (M p n : Nat) : List α :=
  (List.range n).map fun k => mem (slot M p k)

/-- Overwrite the cells from `off` on, without wrapping. -/
def blit (mem : Nat → α) (off : Nat) (bs : List α) : Nat → α := fun i =>
  if off ≤ i then (bs[i - off]?).getD (mem i) else mem i

/-- Overwrite the `bs.length` cells starting at raw position `p`. -/
def writeAt (mem : Nat → α) (M p : Nat) (bs : List α) : Nat → α := fun i =>
  if i < M then (bs[if p ≤ i then i - p else i + M - p]?).getD (mem i) else mem i

/-! ## Positions -/

/-- Nowhere to go. -/
@[simp] theorem advance_zero (hp : p ≤ M) : advance M p 0 = p := by
  simp only [advance, Nat.add_zero, hp, ↓reduceIte]

/-- The way round stays at most at the end. -/
theorem advance_le (hp : p ≤ M) (hn : n ≤ M) : advance M p n ≤ M := by
  unfold advance
  split <;> omega

/-- Two ways round are one. -/
theorem advance_advance {a b : Nat} (hp : p ≤ M) (hab : a + b ≤ M) :
    advance M (advance M p a) b = advance M p (a + b) := by
  unfold advance
  split <;> split <;> split <;> omega

/-- A cell of the ring. -/
theorem slot_lt (hp : p ≤ M) (hk : k < M) : slot M p k < M := by
  unfold slot
  split <;> omega

/-- The cells seen from further on. -/
theorem slot_advance {a : Nat} (hp : p ≤ M) (hak : a + k < M) :
    slot M (advance M p a) k = slot M p (a + k) := by
  unfold slot advance
  split <;> split <;> split <;> omega

/-- Different distances lead to different cells. -/
theorem slot_injective {j : Nat} (hj : j < M) (hk : k < M)
    (h : slot M p j = slot M p k) : j = k := by
  unfold slot at h
  split at h <;> split at h <;> omega

/-- The raw positions of a run that does not fill the buffer determine its length: this
    is where keeping `M` apart from `0` matters. -/
theorem distance_advance (hp : p ≤ M) (hn : n < M) : distance M p (advance M p n) = n := by
  unfold distance advance
  split <;> split <;> omega

/-- Only a full turn, or none, leads back. -/
theorem advance_eq_self_iff (hp : p ≤ M) (hn : n < M) : p = advance M p n ↔ n = 0 := by
  unfold advance
  split <;> omega

/-! ## Reads -/

/-- As many values as are read. -/
@[simp] theorem length_readAt (mem : Nat → α) (M p n : Nat) :
    (readAt mem M p n).length = n := by
  simp only [readAt, List.length_map, List.length_range]

/-- What is read depends on the cells that are read. -/
theorem readAt_congr {mem mem' : Nat → α} (h : ∀ k, k < n → mem (slot M p k) = mem' (slot M p k)) :
    readAt mem M p n = readAt mem' M p n := by
  simp only [readAt]
  exact List.map_congr_left fun k hk => h k (List.mem_range.mp hk)

/-- A read in two parts. -/
theorem readAt_add (mem : Nat → α) {a b : Nat} (hp : p ≤ M) (hab : a + b ≤ M) :
    readAt mem M p (a + b) = readAt mem M p a ++ readAt mem M (advance M p a) b := by
  simp only [readAt, List.range_add, List.map_append, List.map_map]
  congr 1
  apply List.map_congr_left
  intro k hk
  have hk : k < b := List.mem_range.mp hk
  simp only [Function.comp_apply, slot_advance hp (show a + k < M by omega)]

/-- A run that reads as two parts is the two parts read one after the other. -/
theorem readAt_eq_append {mem : Nat → α} (as bs : List α) (hp : p ≤ M)
    (hlen : as.length + bs.length ≤ M)
    (h : readAt mem M p (as.length + bs.length) = as ++ bs) :
    readAt mem M p as.length = as ∧
      readAt mem M (advance M p as.length) bs.length = bs := by
  rw [readAt_add mem hp hlen] at h
  exact List.append_inj h (length_readAt ..)

/-- The last value that is read. -/
theorem readAt_succ (mem : Nat → α) (M p n : Nat) :
    readAt mem M p (n + 1) = readAt mem M p n ++ [mem (slot M p n)] := by
  simp only [readAt, List.range_succ, List.map_append, List.map_cons, List.map_nil]

/-- Each value that is read. -/
theorem getElem?_readAt (mem : Nat → α) (M p : Nat) (h : k < n) :
    (readAt mem M p n)[k]? = some (mem (slot M p k)) := by
  simp only [readAt, List.getElem?_map, List.getElem?_range h, Option.map_some]

/-! ## Writes -/

/-- Nothing is written. -/
@[simp] theorem writeAt_nil (mem : Nat → α) (M p : Nat) : writeAt mem M p [] = mem := by
  funext i
  simp only [writeAt, List.getElem?_nil, Option.getD_none, ite_self]

/-- A write seen through the run it starts: the first cells are new, the others old. -/
theorem writeAt_slot (mem : Nat → α) (bs : List α) (hp : p ≤ M) (hk : k < M) :
    writeAt mem M p bs (slot M p k) = (bs[k]?).getD (mem (slot M p k)) := by
  have hlt := slot_lt hp hk
  have hoff : (if p ≤ slot M p k then slot M p k - p else slot M p k + M - p) = k := by
    unfold slot
    split <;> split <;> omega
  simp only [writeAt, hlt, ↓reduceIte, hoff]

/-- Every cell is at some distance. -/
theorem exists_slot {i : Nat} (hp : p ≤ M) (hi : i < M) : ∃ k, k < M ∧ slot M p k = i := by
  refine ⟨if p ≤ i then i - p else i + M - p, ?_, ?_⟩
  · split <;> omega
  · unfold slot
    split <;> split <;> omega

/-- Two memories are equal when they agree on a full turn and outside the buffer. -/
theorem ext_slot {mem mem' : Nat → α} (hp : p ≤ M)
    (hin : ∀ k, k < M → mem (slot M p k) = mem' (slot M p k))
    (hout : ∀ i, M ≤ i → mem i = mem' i) : mem = mem' := by
  funext i
  by_cases hi : i < M
  · obtain ⟨k, hk, rfl⟩ := exists_slot hp hi
    exact hin k hk
  · exact hout i (by omega)

/-- Cells behind the ring are not written. -/
theorem writeAt_of_le (mem : Nat → α) (M p : Nat) (bs : List α) {i : Nat} (hi : M ≤ i) :
    writeAt mem M p bs i = mem i := by
  simp only [writeAt, show ¬ i < M by omega, ↓reduceIte]

/-- What was written is read. -/
theorem readAt_writeAt (mem : Nat → α) (bs : List α) (hp : p ≤ M) (hlen : bs.length ≤ M) :
    readAt (writeAt mem M p bs) M p bs.length = bs := by
  apply List.ext_getElem?
  intro k
  by_cases hk : k < bs.length
  · rw [getElem?_readAt _ _ _ hk, writeAt_slot _ _ hp (by omega), List.getElem?_eq_getElem hk]
    rfl
  · rw [List.getElem?_eq_none (by simp; omega), List.getElem?_eq_none (by omega)]

/-- Cells of a run are untouched by a write that starts right after it and leaves it room. -/
theorem writeAt_advance_slot (mem : Nat → α) (bs : List α) (hp : p ≤ M)
    (hlen : n + bs.length ≤ M) (hk : k < n) :
    writeAt mem M (advance M p n) bs (slot M p k) = mem (slot M p k) := by
  have hadv := advance_le hp (show n ≤ M by omega)
  obtain ⟨j, hj, hjk⟩ := exists_slot hadv (slot_lt hp (show k < M by omega))
  -- seen from the write, a cell of the run comes after everything written
  have hge : bs.length ≤ j := by
    unfold slot advance at hjk
    split at hjk <;> split at hjk <;> split at hjk <;> omega
  rw [← hjk, writeAt_slot _ _ hadv hj, List.getElem?_eq_none hge]
  rfl

/-- What stands before is read as it was. -/
theorem readAt_writeAt_advance (mem : Nat → α) (bs : List α) (hp : p ≤ M)
    (hlen : n + bs.length ≤ M) :
    readAt (writeAt mem M (advance M p n) bs) M p n = readAt mem M p n :=
  readAt_congr fun _ hk => writeAt_advance_slot mem bs hp hlen hk

/-- Cells before the copy are as they were, -/
theorem blit_of_lt (mem : Nat → α) (bs : List α) {off i : Nat} (hi : i < off) :
    blit mem off bs i = mem i := if_neg (by omega)

/-- and so are those behind it. -/
theorem blit_of_ge (mem : Nat → α) (bs : List α) {off i : Nat} (hi : off + bs.length ≤ i) :
    blit mem off bs i = mem i := by
  rw [blit, if_pos (by omega), List.getElem?_eq_none (by omega)]
  rfl

/-- A copy in two parts. -/
theorem blit_append (mem : Nat → α) (off : Nat) (as bs : List α) :
    blit mem off (as ++ bs) = blit (blit mem off as) (off + as.length) bs := by
  funext i
  by_cases hbs : off + as.length ≤ i
  · rw [blit, if_pos (by omega), List.getElem?_append_right (by omega), blit, if_pos hbs,
      blit_of_ge mem as hbs, Nat.sub_sub]
  · rw [blit_of_lt _ bs (by omega), blit, blit]
    split
    · rw [List.getElem?_append_left (by omega)]
    · rfl

/-! ## One cell at a time -/

/-- Store one element. -/
def store (mem : Nat → α) (i : Nat) (a : α) : Nat → α := fun j => if j = i then a else mem j

/-- Perform a list of stores in order. -/
def storeAll (mem : Nat → α) (todo : List (Nat × α)) : Nat → α :=
  todo.foldl (fun mem c => store mem c.1 c.2) mem

/-- The stores that write `bs` behind the first `k` elements of a run. -/
def stores (M p k : Nat) : List α → List (Nat × α)
  | [] => []
  | b :: bs => (slot M p k, b) :: stores M p (k + 1) bs

/-- The cells of a run from its `k`-th to its `(k + n)`-th element. -/
def slots (M p : Nat) : Nat → Nat → List Nat
  | _, 0 => []
  | k, n + 1 => slot M p k :: slots M p (k + 1) n

/-- A copy is its stores, one after the other. -/
theorem blit_eq_storeAll (mem : Nat → α) (off : Nat) (bs : List α) :
    blit mem off bs = storeAll mem (bs.mapIdx fun k b => (off + k, b)) := by
  induction bs generalizing mem off with
  | nil =>
    funext i
    simp only [blit, List.getElem?_nil, Option.getD_none, ite_self, List.mapIdx_nil, storeAll,
      List.foldl_nil]
  | cons b bs ih =>
    have hrest := ih (store mem off b) (off + 1)
    have hshift : (fun k (c : α) => (off + 1 + k, c)) = fun k c => (off + (k + 1), c) := by
      funext k c
      rw [Nat.add_assoc, Nat.add_comm 1]
    rw [hshift] at hrest
    rw [List.mapIdx_cons, storeAll, List.foldl_cons]
    refine Eq.trans ?_ hrest
    funext i
    simp only [blit, store]
    -- before the first cell, at it, behind it
    rcases Nat.lt_trichotomy i off with hlt | heq | hgt
    · simp only [show ¬ off ≤ i by omega, show ¬ off + 1 ≤ i by omega, show i ≠ off by omega,
        ↓reduceIte]
    · subst heq
      simp only [Nat.le_refl, show ¬ i + 1 ≤ i by omega, ↓reduceIte, Nat.sub_self,
        List.getElem?_cons_zero, Option.getD_some]
    · obtain ⟨j, rfl⟩ : ∃ j, i = off + 1 + j := ⟨i - (off + 1), by omega⟩
      simp only [show off ≤ off + 1 + j by omega, show off + 1 ≤ off + 1 + j by omega,
        show off + 1 + j ≠ off by omega, ↓reduceIte, show off + 1 + j - off = j + 1 by omega,
        List.getElem?_cons_succ, Nat.add_sub_cancel_left]

/-- Nothing is stored. -/
@[simp] theorem storeAll_nil (mem : Nat → α) : storeAll mem [] = mem := rfl

/-- Stores in two parts. -/
theorem storeAll_append (mem : Nat → α) (as bs : List (Nat × α)) :
    storeAll mem (as ++ bs) = storeAll (storeAll mem as) bs := by
  simp only [storeAll, List.foldl_append]

/-- The stores of a write in two parts. -/
theorem stores_append (M p k : Nat) (as bs : List α) :
    stores M p k (as ++ bs) = stores M p k as ++ stores M p (k + as.length) bs := by
  induction as generalizing k with
  | nil => rfl
  | cons a as ih =>
    simp only [List.cons_append, stores, ih, List.length_cons]
    rw [Nat.add_assoc k 1, Nat.add_comm 1]

/-- The stores seen from further on. -/
theorem stores_advance {a : Nat} (hp : p ≤ M) (bs : List α) (k : Nat)
    (h : a + (k + bs.length) ≤ M) :
    stores M (advance M p a) k bs = stores M p (a + k) bs := by
  induction bs generalizing k with
  | nil => rfl
  | cons b bs ih =>
    simp only [List.length_cons] at h
    simp only [stores, slot_advance hp (show a + k < M by omega), ih (k + 1) (by omega)]
    rfl

/-- One store for each value. -/
theorem length_stores (M p k : Nat) (bs : List α) : (stores M p k bs).length = bs.length := by
  induction bs generalizing k with
  | nil => rfl
  | cons b bs ih => simp only [stores, List.length_cons, ih]

/-- One cell for each value. -/
@[simp] theorem length_slots (M p k n : Nat) : (slots M p k n).length = n := by
  induction n generalizing k with
  | zero => rfl
  | succ n ih => simp only [slots, List.length_cons, ih]

/-- Cells in two parts. -/
theorem slots_add (M p k a b : Nat) :
    slots M p k (a + b) = slots M p k a ++ slots M p (k + a) b := by
  induction a generalizing k with
  | zero => simp only [Nat.zero_add, slots, List.nil_append, Nat.add_zero]
  | succ a ih =>
    rw [Nat.succ_add]
    simp only [slots, List.cons_append, ih]
    rw [Nat.add_assoc k 1, Nat.add_comm 1]

/-- Storing one more element extends the written run. -/
theorem store_writeAt (mem : Nat → α) (bs : List α) (b : α) (hp : p ≤ M) (hlen : bs.length < M) :
    store (writeAt mem M p bs) (slot M p bs.length) b = writeAt mem M p (bs ++ [b]) := by
  have hslot := slot_lt hp hlen
  apply ext_slot hp
  · intro k hk
    rw [writeAt_slot _ _ hp hk]
    by_cases heq : k = bs.length
    · -- the new cell
      subst heq
      simp only [store, ↓reduceIte, List.getElem?_append_right (Nat.le_refl _), Nat.sub_self,
        List.getElem?_cons_zero, Option.getD_some]
    · have hne : slot M p k ≠ slot M p bs.length := fun h => heq (slot_injective hk hlen h)
      simp only [store, hne, ↓reduceIte]
      rw [writeAt_slot _ _ hp hk]
      congr 1
      by_cases hlt : k < bs.length
      · rw [List.getElem?_append_left hlt]
      · rw [List.getElem?_eq_none (by omega), List.getElem?_eq_none (by simp; omega)]
  · intro i hi
    simp only [store, writeAt_of_le _ _ _ _ hi, show i ≠ slot M p bs.length by omega, ↓reduceIte]

/-- Stores leave every cell alone that is not among them. -/
theorem storeAll_of_not_mem (mem : Nat → α) {todo : List (Nat × α)} {i : Nat}
    (hi : ∀ c ∈ todo, c.1 ≠ i) : storeAll mem todo i = mem i := by
  induction todo generalizing mem with
  | nil => rfl
  | cons c todo ih =>
    have hrest := ih (store mem c.1 c.2) fun d hd => hi d (List.mem_cons_of_mem c hd)
    have hc := hi c (List.mem_cons_self ..)
    rw [storeAll, List.foldl_cons]
    refine hrest.trans ?_
    simp only [store, hc.symm, ↓reduceIte]

/-- Stores moved by `off` are the stores in the memory seen from `off`. -/
theorem storeAll_map_add (mem : Nat → α) (off k : Nat) (todo : List (Nat × α)) :
    storeAll mem (todo.map fun c => (off + c.1, c.2)) (off + k) =
      storeAll (fun j => mem (off + j)) todo k := by
  induction todo generalizing mem with
  | nil => rfl
  | cons c todo ih =>
    rw [List.map_cons, storeAll, List.foldl_cons, storeAll, List.foldl_cons]
    refine (ih (store mem (off + c.1) c.2)).trans ?_
    have hshift : (fun j => store mem (off + c.1) c.2 (off + j)) =
        store (fun j => mem (off + j)) c.1 c.2 := by
      funext j
      simp only [store, Nat.add_right_inj]
    rw [hshift]
    rfl

/-- Writing a run is storing its elements one after the other. -/
theorem storeAll_stores (mem : Nat → α) (bs : List α) (hp : p ≤ M) (hlen : bs.length ≤ M) :
    storeAll mem (stores M p 0 bs) = writeAt mem M p bs := by
  -- on what is left to store, behind the elements `as` already stored
  suffices h : ∀ as : List α, as.length + bs.length ≤ M →
      storeAll (writeAt mem M p as) (stores M p as.length bs) = writeAt mem M p (as ++ bs) by
    have := h [] (by simpa using hlen)
    rwa [writeAt_nil] at this
  clear hlen
  induction bs with
  | nil => intro as _; rw [List.append_nil]; rfl
  | cons b bs ih =>
    intro as hlen
    simp only [List.length_cons] at hlen
    have hrec := ih (as ++ [b]) (by simp only [List.length_append, List.length_singleton]; omega)
    rw [List.append_assoc, List.singleton_append, List.length_append, List.length_singleton] at hrec
    rw [← hrec, ← store_writeAt mem as b hp (by omega)]
    rfl

/-- The values of the cells are what is read. -/
theorem map_slots (mem : Nat → α) (M p n : Nat) : (slots M p 0 n).map mem = readAt mem M p n := by
  suffices h : ∀ k, (slots M p k n).map mem = (List.range' k n).map fun j => mem (slot M p j) by
    rw [h, ← List.range_eq_range']
    rfl
  induction n with
  | zero => intro k; rfl
  | succ n ih =>
    intro k
    simp only [slots, List.map_cons, ih, List.range'_succ]

/-- Before the end of the buffer the stores of a run are consecutive. -/
theorem stores_of_fit (bs : List α) (k : Nat) (hfit : p + k + bs.length ≤ M) :
    stores M p k bs = bs.mapIdx fun j b => (p + k + j, b) := by
  induction bs generalizing k with
  | nil => rfl
  | cons b bs ih =>
    simp only [List.length_cons] at hfit
    have hslot : slot M p k = p + k := if_pos (by omega)
    rw [stores, List.mapIdx_cons, ih (k + 1) (by omega), hslot]
    congr 2
    funext j c
    rw [show p + (k + 1) + j = p + k + (j + 1) by omega]

/-- Past the end they are consecutive from the start of the buffer. -/
theorem stores_of_wrap (bs : List α) (k : Nat) (hwrap : M ≤ p + k) :
    stores M p k bs = bs.mapIdx fun j b => (p + k - M + j, b) := by
  induction bs generalizing k with
  | nil => rfl
  | cons b bs ih =>
    have hslot : slot M p k = p + k - M := if_neg (by omega)
    rw [stores, List.mapIdx_cons, ih (k + 1) (by omega), hslot]
    congr 2
    funext j c
    rw [show p + (k + 1) - M + j = p + k - M + (j + 1) by omega]

/-- Without a way round the cells follow each other. -/
theorem slots_of_fit (n k : Nat) (hfit : p + k + n ≤ M) :
    slots M p k n = (List.range n).map fun j => p + k + j := by
  induction n generalizing k with
  | zero => rfl
  | succ n ih =>
    have hslot : slot M p k = p + k := if_pos (by omega)
    rw [slots, ih (k + 1) (by omega), hslot, List.range_succ_eq_map, List.map_cons, List.map_map]
    congr 1
    refine List.map_congr_left fun j _ => ?_
    simp only [Function.comp_apply, Nat.succ_eq_add_one]
    omega

/-- Behind the way round they follow each other from the start. -/
theorem slots_of_wrap (n k : Nat) (hwrap : M ≤ p + k) :
    slots M p k n = (List.range n).map fun j => p + k - M + j := by
  induction n generalizing k with
  | zero => rfl
  | succ n ih =>
    have hslot : slot M p k = p + k - M := if_neg (by omega)
    rw [slots, ih (k + 1) (by omega), hslot, List.range_succ_eq_map, List.map_cons, List.map_map]
    congr 1
    refine List.map_congr_left fun j _ => ?_
    simp only [Function.comp_apply, Nat.succ_eq_add_one]
    omega

/-- One more value is stored and read. -/
theorem readAt_store_succ (mem : Nat → α) (p : Nat) (b : α) (hn : n < M) :
    readAt (store mem (slot M p n) b) M p (n + 1) = readAt mem M p n ++ [b] := by
  rw [readAt_succ]
  congr 1
  · refine readAt_congr fun k hk => ?_
    have hne : slot M p k ≠ slot M p n := fun h => by
      have := slot_injective (show k < M by omega) hn h
      omega
    simp only [store, hne, ↓reduceIte]
  · simp only [store, ↓reduceIte]

/-- A store behind a run leaves the run alone. -/
theorem readAt_store_advance (mem : Nat → α) (b : α) (hp : p ≤ M) (h : n + k < M) :
    readAt (store mem (slot M (advance M p n) k) b) M p n = readAt mem M p n := by
  refine readAt_congr fun j hj => ?_
  have hne : slot M p j ≠ slot M (advance M p n) k := fun heq => by
    rw [slot_advance hp h] at heq
    have := slot_injective (show j < M by omega) h heq
    omega
  simp only [store, hne, ↓reduceIte]

end Circular
