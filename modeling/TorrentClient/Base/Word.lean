import Mathlib.Algebra.Order.Ring.Int
import Mathlib.Algebra.GroupWithZero.Nat
import Mathlib.Tactic.Common

/-!
# Machine words and the memory they are copied through

Unsigned 64-bit arithmetic as functions on `Nat` that wrap at `2 ^ 64`, the
conversions between `int64_t` and `uint64_t`, words in network order and in the
memory of a little-endian host, and copies between buffers that are lists of
cells.
-/

namespace TorrentClient

abbrev Bytes := List UInt8

/-! ## 64-bit words -/

def add64 (a b : Nat) : Nat := (a + b) % 2 ^ 64

def sub64 (a b : Nat) : Nat := (if b ≤ a then a - b else 2 ^ 64 - (b - a)) % 2 ^ 64

def mul64 (a b : Nat) : Nat := a * b % 2 ^ 64

theorem add64_eq {a b : Nat} (h : a + b < 2 ^ 64) : add64 a b = a + b :=
  Nat.mod_eq_of_lt h

theorem sub64_eq {a b : Nat} (ha : a < 2 ^ 64) (h : b ≤ a) : sub64 a b = a - b := by
  rw [sub64, if_pos h]
  omega

theorem sub64_lt (a b : Nat) : sub64 a b < 2 ^ 64 := Nat.mod_lt _ (by decide)

/-- The `uint64_t` an `int64_t` converts to. -/
def toUInt64 (z : Int) : Nat := (z % 2 ^ 64).toNat

/-- The `int64_t` a `uint64_t` converts to. -/
def toInt64 (n : Nat) : Int :=
  if n % 2 ^ 64 < 2 ^ 63 then (n % 2 ^ 64 : Nat) else (n % 2 ^ 64 : Nat) - 2 ^ 64

theorem toInt64_of_lt {n : Nat} (h : n < 2 ^ 63) : toInt64 n = n := by
  have hn : n % 2 ^ 64 = n := Nat.mod_eq_of_lt (by omega)
  rw [toInt64, hn, if_pos h]

theorem toInt64_toUInt64 {z : Int} (lo : -2 ^ 63 ≤ z) (hi : z < 2 ^ 63) :
    toInt64 (toUInt64 z) = z := by
  unfold toInt64 toUInt64
  split <;> omega

theorem toUInt64_toInt64 {n : Nat} (h : n < 2 ^ 64) : toUInt64 (toInt64 n) = n := by
  unfold toInt64 toUInt64
  split <;> omega

theorem toUInt64_of_nonneg {z : Int} (lo : 0 ≤ z) (hi : z < 2 ^ 64) :
    toUInt64 z = z.toNat := by
  unfold toUInt64
  omega

/-- A `std::vector`, which holds at most `max_size()` elements. -/
abbrev StdVector (α : Type) := { elems : List α // elems.length < 2 ^ 63 }

/-- `push_back`, `none` where the vector is full. -/
def pushBack {α : Type} (elems : StdVector α) (elem : α) : Option (StdVector α) :=
  if room : elems.val.length + 1 < 2 ^ 63 then
    some ⟨elems.val ++ [elem], by rwa [List.length_append]⟩
  else none

theorem pushBack_some {α : Type} {elems : StdVector α} (elem : α)
    (room : elems.val.length + 1 < 2 ^ 63) :
    ∃ elems', pushBack elems elem = some elems' ∧ elems'.val = elems.val ++ [elem] :=
  ⟨_, dif_pos room, rfl⟩

/-- `elems.back() = f(elems.back())`, `none` when there are no elements. -/
def modifyBack {α : Type} (f : α → α) (elems : List α) : Option (List α) :=
  elems.getLast?.map fun last => elems.dropLast ++ [f last]

/-- `elems.resize(n)`, where there is room for so many elements. -/
def resize {α : Type} (elems : List α) (n : Nat) (value : α) : List α :=
  elems.take n ++ List.replicate (n - elems.length) value

@[simp] theorem resize_length {α : Type} (elems : List α) (n : Nat) (value : α) :
    (resize elems n value).length = n := by
  rw [resize, List.length_append, List.length_take, List.length_replicate]
  omega

/-! ## Network order -/

/-- The value of the bytes at an address, most significant byte first. -/
def ntohl (bytes : List UInt8) : Nat := bytes.foldl (fun n b => n * 256 + b.toNat) 0

/-- The four bytes a `uint32_t` is stored as in network order. -/
def htonl (n : Nat) : List UInt8 :=
  [UInt8.ofNat (n / 2 ^ 24), UInt8.ofNat (n / 2 ^ 16), UInt8.ofNat (n / 2 ^ 8), UInt8.ofNat n]

@[simp] theorem htonl_length (n : Nat) : (htonl n).length = 4 := rfl

theorem ntohl_htonl {n : Nat} (h : n < 2 ^ 32) : ntohl (htonl n) = n := by
  simp only [ntohl, htonl, List.foldl_cons, List.foldl_nil, UInt8.toNat_ofNat']
  omega

theorem ntohl_lt {bytes : List UInt8} (h : bytes.length ≤ 4) : ntohl bytes < 2 ^ 32 := by
  have bound (l : List UInt8) : ∀ n, l.foldl (fun n b => n * 256 + b.toNat) n + 1 ≤
      (n + 1) * 256 ^ l.length := by
    induction l with
    | nil => intro n; simp
    | cons b l ih =>
      intro n
      have hb := b.toNat_lt
      apply Nat.le_trans (ih (n * 256 + b.toNat))
      rw [List.length_cons, Nat.pow_succ', ← Nat.mul_assoc]
      exact Nat.mul_le_mul_right _ (by omega)
  have hp : 256 ^ bytes.length ≤ 256 ^ 4 := Nat.pow_le_pow_right (by decide) h
  have hb := bound bytes 0
  simp only [ntohl]
  omega

/-- A 32-bit field read through a pointer, `none` when it reaches past the
memory the pointer gives access to. -/
def ntohlAt (data : List UInt8) (i : Nat) : Option Nat :=
  if i + 4 ≤ data.length then some (ntohl ((data.drop i).take 4)) else none

theorem ntohlAt_more {data : List UInt8} {i n : Nat} (h : ntohlAt data i = some n)
    (more : List UInt8) : ntohlAt (data ++ more) i = some n ∧ i + 4 ≤ data.length := by
  unfold ntohlAt at *
  split at h
  · rename_i inside
    have inside' : i + 4 ≤ (data ++ more).length := by
      rw [List.length_append]
      omega
    rw [if_pos inside', ← h, List.drop_append_of_le_length (by omega),
      List.take_append_of_le_length (by rw [List.length_drop]; omega)]
    exact ⟨rfl, inside⟩
  · cases h

theorem ntohlAt_append (front : List UInt8) {n : Nat} (h : n < 2 ^ 32) (rest : List UInt8) :
    ntohlAt (front ++ htonl n ++ rest) front.length = some n := by
  have hlen : front.length + 4 ≤ (front ++ htonl n ++ rest).length := by simp
  rw [ntohlAt, if_pos hlen, List.append_assoc, List.drop_left,
    List.take_left' (htonl_length n), ntohl_htonl h]

theorem ntohlAt_isSome {data : List UInt8} {i : Nat} :
    (ntohlAt data i).isSome ↔ i + 4 ≤ data.length := by
  unfold ntohlAt
  split <;> simp_all

/-- A field that lies within the first bytes is read from them. -/
theorem ntohlAt_take {data : List UInt8} {i n v : Nat} (h : ntohlAt (data.take n) i = some v) :
    ntohlAt data i = some v ∧ i + 4 ≤ n := by
  have inside : i + 4 ≤ (data.take n).length := ntohlAt_isSome.1 (h ▸ rfl)
  rw [List.length_take] at inside
  rw [ntohlAt, if_pos (by rw [List.length_take]; exact inside), List.drop_take, List.take_take,
    Nat.min_eq_left (by omega)] at h
  rw [ntohlAt, if_pos (by omega)]
  exact ⟨h, by omega⟩

theorem ntohlAt_lt {data : List UInt8} {i v : Nat} (h : ntohlAt data i = some v) :
    v < 2 ^ 32 := by
  unfold ntohlAt at h
  split at h
  · cases h
    exact ntohl_lt (by rw [List.length_take]; omega)
  · cases h

/-- A 16-bit word in network order. -/
def ntohs (bytes : Bytes) : Nat := bytes.foldl (fun n b => n * 256 + b.toNat) 0

/-- The two bytes a `uint16_t` is stored as in network order. -/
def htons (n : Nat) : List UInt8 := [UInt8.ofNat (n / 2 ^ 8), UInt8.ofNat n]

theorem ntohs_htons {n : Nat} (h : n < 2 ^ 16) : ntohs (htons n) = n := by
  simp only [ntohs, htons, List.foldl_cons, List.foldl_nil, UInt8.toNat_ofNat']
  omega

/-! ## A little-endian host -/

/-- The bytes of a `uint32_t` in memory, least significant byte first. -/
def store32 (n : Nat) : List UInt8 :=
  [UInt8.ofNat n, UInt8.ofNat (n / 2 ^ 8), UInt8.ofNat (n / 2 ^ 16), UInt8.ofNat (n / 2 ^ 24)]

def store16 (n : Nat) : List UInt8 := [UInt8.ofNat n, UInt8.ofNat (n / 2 ^ 8)]

/-- The word with its bytes the other way round. -/
def swap32 (n : Nat) : Nat :=
  n % 2 ^ 8 * 2 ^ 24 + n / 2 ^ 8 % 2 ^ 8 * 2 ^ 16 + n / 2 ^ 16 % 2 ^ 8 * 2 ^ 8 +
    n / 2 ^ 24 % 2 ^ 8

def swap16 (n : Nat) : Nat := n % 2 ^ 8 * 2 ^ 8 + n / 2 ^ 8 % 2 ^ 8

theorem swap32_bytes (n : Nat) :
    swap32 n % 2 ^ 8 = n / 2 ^ 24 % 2 ^ 8 ∧ swap32 n / 2 ^ 8 % 2 ^ 8 = n / 2 ^ 16 % 2 ^ 8 ∧
      swap32 n / 2 ^ 16 % 2 ^ 8 = n / 2 ^ 8 % 2 ^ 8 ∧ swap32 n / 2 ^ 24 % 2 ^ 8 = n % 2 ^ 8 := by
  have byte (m : Nat) : m % 2 ^ 8 < 2 ^ 8 := Nat.mod_lt _ (by decide)
  have := byte n
  have := byte (n / 2 ^ 8)
  have := byte (n / 2 ^ 16)
  have := byte (n / 2 ^ 24)
  unfold swap32
  generalize n % 2 ^ 8 = a at *
  generalize n / 2 ^ 8 % 2 ^ 8 = b at *
  generalize n / 2 ^ 16 % 2 ^ 8 = c at *
  generalize n / 2 ^ 24 % 2 ^ 8 = d at *
  omega

/-- A word is in network order when its bytes are swapped before it is stored. -/
theorem htonl_eq (n : Nat) : htonl n = store32 (swap32 n) := by
  obtain ⟨a, b, c, d⟩ := swap32_bytes n
  simp only [htonl, store32, List.cons.injEq, ← UInt8.toNat_inj, UInt8.toNat_ofNat', a, b, c, d,
    and_self]

theorem htons_eq (n : Nat) : htons n = store16 (swap16 n) := by
  simp only [htons, store16, swap16, List.cons.injEq, ← UInt8.toNat_inj, UInt8.toNat_ofNat',
    and_true]
  have := Nat.mod_lt n (show 0 < 2 ^ 8 by decide)
  have := Nat.mod_lt (n / 2 ^ 8) (show 0 < 2 ^ 8 by decide)
  generalize n % 2 ^ 8 = a at *
  generalize n / 2 ^ 8 % 2 ^ 8 = b at *
  omega

/-- A word that is stored as it is has the bytes of its swap in network order. -/
theorem store32_eq (n : Nat) : store32 n = htonl (swap32 n) := by
  obtain ⟨a, b, c, d⟩ := swap32_bytes n
  simp only [htonl, store32, List.cons.injEq, ← UInt8.toNat_inj, UInt8.toNat_ofNat', a, b, c, d,
    and_self]

theorem swap32_lt (n : Nat) : swap32 n < 2 ^ 32 := by
  unfold swap32
  omega

/-! ## Copies -/

/-- The `n` bytes at `i` after a pointer, `none` when they reach past the memory
the pointer gives access to. -/
def bytesAt (data : List UInt8) (i n : Nat) : Option (List UInt8) :=
  if n = 0 then some []
  else if i + n ≤ data.length then some ((data.drop i).take n)
  else none

theorem bytesAt_eq {data : List UInt8} {i n : Nat} (h : i + n ≤ data.length) :
    bytesAt data i n = some ((data.drop i).take n) := by
  unfold bytesAt
  by_cases zero : n = 0
  · rw [if_pos zero, zero, List.take_zero]
  · rw [if_neg zero, if_pos h]

theorem bytesAt_more {data bytes : List UInt8} {i n : Nat} (h : bytesAt data i n = some bytes)
    (more : List UInt8) : bytesAt (data ++ more) i n = some bytes := by
  unfold bytesAt at *
  by_cases zero : n = 0
  · rwa [if_pos zero] at h ⊢
  · rw [if_neg zero] at h ⊢
    split at h
    · rename_i inside
      have inside' : i + n ≤ (data ++ more).length := by
        rw [List.length_append]
        omega
      rw [if_pos inside', ← h, List.drop_append_of_le_length (by omega),
        List.take_append_of_le_length (by rw [List.length_drop]; omega)]
    · cases h

section
variable {α : Type}

/-- `dst` with the bytes from position `i` on replaced by `src`. -/
def overwrite (dst : List α) (i : Nat) (src : List α) : List α :=
  dst.take i ++ src ++ dst.drop (i + src.length)

@[simp] theorem overwrite_nil (dst : List α) (i : Nat) : overwrite dst i [] = dst := by
  simp [overwrite]

theorem overwrite_length {dst src : List α} {i : Nat} (h : i + src.length ≤ dst.length) :
    (overwrite dst i src).length = dst.length := by
  simp only [overwrite, List.length_append, List.length_take, List.length_drop]
  omega

theorem overwrite_getElem? {dst src : List α} {i : Nat} (h : i + src.length ≤ dst.length)
    (x : Nat) : (overwrite dst i src)[x]? =
      if i ≤ x ∧ x < i + src.length then src[x - i]? else dst[x]? := by
  have hi : (dst.take i).length = i := by
    rw [List.length_take]; omega
  unfold overwrite
  rw [List.append_assoc, List.getElem?_append, hi]
  by_cases before : x < i
  · rw [if_pos before, if_neg (by omega), List.getElem?_take_of_lt before]
  · rw [if_neg before, List.getElem?_append]
    by_cases inside : x - i < src.length
    · rw [if_pos inside, if_pos (by omega)]
    · rw [if_neg inside, if_neg (by omega), List.getElem?_drop]
      congr 1
      omega

/-- `memcpy(dst + i, src + j, size)` into a buffer whose cells are `none`
until they are written. `none` when a byte lies outside either buffer. -/
def memcpy (dst : List (Option α)) (i : Nat) (src : List α) (j size : Nat) :
    Option (List (Option α)) :=
  if size = 0 then some dst
  else if j + size ≤ src.length ∧ i + size ≤ dst.length then
    some (overwrite dst i (((src.drop j).take size).map some))
  else none

theorem memcpy_eq {dst : List (Option α)} {i : Nat} {src : List α} {j size : Nat}
    (hs : j + size ≤ src.length) (hd : i + size ≤ dst.length) :
    memcpy dst i src j size = some (overwrite dst i (((src.drop j).take size).map some)) := by
  unfold memcpy
  by_cases h0 : size = 0
  · subst h0; simp
  · rw [if_neg h0, if_pos ⟨hs, hd⟩]

theorem memcpy_more {dst out : List (Option α)} {i : Nat} {src : List α} {j size : Nat}
    (h : memcpy dst i src j size = some out) (more : List α) :
    memcpy dst i (src ++ more) j size = some out := by
  unfold memcpy at *
  by_cases zero : size = 0
  · rwa [if_pos zero] at h ⊢
  · rw [if_neg zero] at h ⊢
    split at h
    · rename_i bounds
      have bounds' : j + size ≤ (src ++ more).length ∧ i + size ≤ dst.length := by
        rw [List.length_append]
        omega
      rw [if_pos bounds', ← h, List.drop_append_of_le_length (by omega),
        List.take_append_of_le_length (by rw [List.length_drop]; omega)]
    · cases h

theorem memcpy_isSome {dst : List (Option α)} {i : Nat} {src : List α} {j size : Nat} :
    (memcpy dst i src j size).isSome ↔
      size = 0 ∨ (j + size ≤ src.length ∧ i + size ≤ dst.length) := by
  unfold memcpy
  split
  · simp_all
  · split <;> simp_all

theorem memcpy_length {dst out : List (Option α)} {i : Nat} {src : List α} {j size : Nat}
    (h : memcpy dst i src j size = some out) : out.length = dst.length := by
  unfold memcpy at h
  split at h
  · cases h; rfl
  · split at h
    · rename_i bounds
      cases h
      apply overwrite_length
      simp only [List.length_map, List.length_take, List.length_drop]
      omega
    · cases h

/-- What a copy leaves in a cell: the source byte inside the window, the old
cell outside. -/
theorem memcpy_getElem? {dst out : List (Option α)} {i : Nat} {src : List α} {j size : Nat}
    (h : memcpy dst i src j size = some out) (x : Nat) :
    out[x]? = if i ≤ x ∧ x < i + size then (src[j + (x - i)]?).map some else dst[x]? := by
  unfold memcpy at h
  split at h
  · rename_i h0
    cases h
    rw [if_neg (by omega)]
  · split at h
    · rename_i bounds
      cases h
      have hlen : (((src.drop j).take size).map some).length = size := by
        simp only [List.length_map, List.length_take, List.length_drop]
        omega
      rw [overwrite_getElem? (by omega), hlen]
      split
      · rename_i inside
        rw [List.getElem?_map, List.getElem?_take_of_lt (by omega), List.getElem?_drop]
      · rfl
    · cases h

end

end TorrentClient
