import OrionMac.Poly1305.State

/-!
# Poly1305 as RFC 8439 defines it

The meaning the state machine is checked against. The key is `r ‖ s` with `r` clamped; the
message is cut into 16-byte chunks, the last possibly shorter; each chunk, read
little-endian with a `1` byte appended, is added to an accumulator that is then multiplied
by `r` modulo `p = 2 ^ 130 - 5`; the tag is the accumulator plus `s`, modulo `2 ^ 128`, in
16 little-endian bytes.

Nothing here follows the limb code: numbers are plain naturals.
-/

namespace OrionMac.Poly1305

/-- The prime `2 ^ 130 - 5`. -/
def p : Nat := 2 ^ 130 - 5

/-- `r`: the first 16 bytes of the key, little-endian, clamped. -/
def clampedR (key : OneTimeKey) : Nat :=
  littleEndian (key.unprotectedAsBytes.take 16) &&& 0x0ffffffc0ffffffc0ffffffc0fffffff

/-- `s`: the last 16 bytes of the key, little-endian. -/
def padS (key : OneTimeKey) : Nat := littleEndian (key.unprotectedAsBytes.drop 16)

/-- The message in consecutive 16-byte chunks, the last possibly shorter. -/
def chunks (m : List UInt8) : List (List UInt8) :=
  if m = [] then [] else m.take 16 :: chunks (m.drop 16)
termination_by m.length
decreasing_by
  simp only [List.length_drop]
  have := List.length_pos.mpr ‹_›
  omega

/-- The accumulator after `cs`: `acc ← ((acc + le c + 2 ^ (8 |c|)) * r) mod p` per chunk. -/
def accumulate (r acc : Nat) (cs : List (List UInt8)) : Nat :=
  cs.foldl (fun acc c => (acc + littleEndian c + 2 ^ (8 * c.length)) * r % p) acc

/-- The `n` little-endian bytes of `x`, modulo `2 ^ (8 n)`. -/
def leBytes : Nat → Nat → List UInt8
  | 0, _ => []
  | n + 1, x => UInt8.ofNat x :: leBytes n (x / 2 ^ 8)

theorem length_leBytes (n x : Nat) : (leBytes n x).length = n := by
  induction n generalizing x with
  | zero => rfl
  | succ n ih => simp [leBytes, ih]

/-- The RFC 8439 tag of `m` under `key`. -/
def rfcTag (key : OneTimeKey) (m : List UInt8) : Tag :=
  ⟨⟨leBytes 16 ((accumulate (clampedR key) 0 (chunks m) + padS key) % 2 ^ 128),
    length_leBytes _ _⟩⟩

-- ---------------------------------------------------------------------------
-- Chunks
-- ---------------------------------------------------------------------------

@[simp] theorem chunks_nil : chunks [] = [] := by
  rw [chunks]; rfl

theorem chunks_of_ne_nil {m : List UInt8} (h : m ≠ []) :
    chunks m = m.take 16 :: chunks (m.drop 16) := by
  rw [chunks, if_neg h]

theorem chunks_of_length_le {m : List UInt8} (h0 : m ≠ []) (h : m.length ≤ 16) :
    chunks m = [m] := by
  rw [chunks_of_ne_nil h0, List.take_of_length_le h, List.drop_of_length_le h, chunks_nil]

theorem chunks_append {a : List UInt8} (b : List UInt8) (ha : a.length % 16 = 0) :
    chunks (a ++ b) = chunks a ++ chunks b := by
  induction a using chunks.induct with
  | case1 => simp
  | case2 a h ih =>
    have hlen : 16 ≤ a.length := by
      have := List.length_pos.mpr h
      omega
    rw [chunks_of_ne_nil (fun he => h (List.append_eq_nil.mp he).1), chunks_of_ne_nil h,
      List.take_append_of_le_length hlen, List.drop_append_of_le_length hlen,
      ih (by simp only [List.length_drop]; omega), List.cons_append]

theorem accumulate_append (r acc : Nat) (xs ys : List (List UInt8)) :
    accumulate r acc (xs ++ ys) = accumulate r (accumulate r acc xs) ys :=
  List.foldl_append _ _ _ _

theorem accumulate_chunks_append {done c : List UInt8} (hd : done.length % 16 = 0) (hc0 : c ≠ [])
    (hc : c.length ≤ 16) (r acc : Nat) :
    accumulate r acc (chunks (done ++ c)) =
      (accumulate r acc (chunks done) + littleEndian c + 2 ^ (8 * c.length)) * r % p := by
  rw [chunks_append c hd, chunks_of_length_le hc0 hc, accumulate_append]
  rfl

-- ---------------------------------------------------------------------------
-- Little-endian bytes
-- ---------------------------------------------------------------------------

theorem littleEndian_leBytes (n x : Nat) : littleEndian (leBytes n x) = x % 2 ^ (8 * n) := by
  induction n generalizing x with
  | zero => simp [leBytes, Nat.mod_one]
  | succ n ih =>
    rw [leBytes, littleEndian_cons, ih, uint8_toNat_ofNat, two_pow_eight_mul_succ, Nat.mod_mul,
      Nat.add_comm]

theorem leBytes_littleEndian (bs : List UInt8) : leBytes bs.length (littleEndian bs) = bs := by
  induction bs with
  | nil => rfl
  | cons b bs ih =>
    have hb := uint8_toNat_lt b
    have hdiv : (b.toNat + 2 ^ 8 * littleEndian bs) / 2 ^ 8 = littleEndian bs := by omega
    have hbyte : UInt8.ofNat (b.toNat + 2 ^ 8 * littleEndian bs) = b :=
      UInt8.toNat.inj (by rw [uint8_toNat_ofNat]; omega)
    rw [List.length_cons, leBytes, littleEndian_cons, hdiv, ih, hbyte]

theorem eq_of_littleEndian_eq {xs ys : List UInt8} (hl : xs.length = ys.length)
    (h : littleEndian xs = littleEndian ys) : xs = ys := by
  rw [← leBytes_littleEndian xs, ← leBytes_littleEndian ys, hl, h]

theorem leBytes_mod (n x : Nat) : leBytes n (x % 2 ^ (8 * n)) = leBytes n x :=
  eq_of_littleEndian_eq (by rw [length_leBytes, length_leBytes])
    (by rw [littleEndian_leBytes, littleEndian_leBytes, Nat.mod_mod])

theorem rfcTag_eq (key : OneTimeKey) (m : List UInt8) :
    rfcTag key m =
      ⟨⟨leBytes 16 (accumulate (clampedR key) 0 (chunks m) + padS key), length_leBytes _ _⟩⟩ := by
  rw [rfcTag]
  congr 2
  exact leBytes_mod 16 _

end OrionMac.Poly1305
