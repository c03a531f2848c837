import OrionMac.Lifecycle

/-!
# The Poly1305 state

`hazardous/mac/poly1305.rs` as a debug build runs it (see `OrionMac.Rust`). The limb code
of `process_block` and `process_end_of_stream` is written line by line, each `+` and `*`
checked; the lines the source repeats with other limbs are one definition each
(`dot5`, `carryStep`, `fullCarryStep`, `minusPStep`). `step` drives the state with the
calls of `OrionMac.Lifecycle`.

`Drop` (zeroizing) and `Debug` are not modelled: nothing observable by the calls depends on
them.
-/

namespace OrionMac

namespace Poly1305

/-- `OneTimeKey`: the 32-byte key `r ‖ s`. -/
abbrev OneTimeKey := SecretBytes poly1305Keysize

/-- `Tag`: the 16-byte tag. -/
abbrev Tag := MacTag poly1305Blocksize

/-- `[u32; 5]`: the limbs of the accumulator `a` and of `r`, in radix `2 ^ 26`. -/
structure Limbs (α : Type) where
  l0 : α
  l1 : α
  l2 : α
  l3 : α
  l4 : α
  deriving DecidableEq, Repr

/-- `[u32; 4]`: the words of the pad `s`, and of the tag. -/
structure Words (α : Type) where
  w0 : α
  w1 : α
  w2 : α
  w3 : α
  deriving DecidableEq, Repr

def Limbs.map (f : α → β) (x : Limbs α) : Limbs β := ⟨f x.l0, f x.l1, f x.l2, f x.l3, f x.l4⟩

def Limbs.toNat (x : Limbs UInt32) : Limbs Nat := x.map UInt32.toNat

def Limbs.ofNat (x : Limbs Nat) : Limbs UInt32 := x.map UInt32.ofNat

def Words.toNat (x : Words UInt32) : Words Nat := ⟨x.w0.toNat, x.w1.toNat, x.w2.toNat, x.w3.toNat⟩

end Poly1305

open Poly1305 in
structure Poly1305 where
  a : Limbs UInt32
  r : Limbs UInt32
  s : Words UInt32
  leftover : Nat
  buffer : Mathlib.Vector UInt8 poly1305Blocksize
  isFinalized : Bool
  deriving DecidableEq

namespace Poly1305

-- ---------------------------------------------------------------------------
-- initialize (`initializeKey`)
-- ---------------------------------------------------------------------------

/-- `initialize`: clamp `r` from the first 16 bytes of the key, read `s` from the last 16. -/
def initializeKey (st : Poly1305) (key : OneTimeKey) : Poly1305 :=
  let k := key.unprotectedAsBytes
  { st with
    r := ⟨.ofNat (readU32 (slice k 0 4) &&& 0x3ffffff),
          .ofNat ((readU32 (slice k 3 7) >>> 2) &&& 0x3ffff03),
          .ofNat ((readU32 (slice k 6 10) >>> 4) &&& 0x3ffc0ff),
          .ofNat ((readU32 (slice k 9 13) >>> 6) &&& 0x3f03fff),
          .ofNat ((readU32 (slice k 12 16) >>> 8) &&& 0x00fffff)⟩
    s := ⟨.ofNat (readU32 (slice k 16 20)), .ofNat (readU32 (slice k 20 24)),
          .ofNat (readU32 (slice k 24 28)), .ofNat (readU32 (slice k 28 32))⟩ }

@[simp] theorem initializeKey_a (st : Poly1305) (key : OneTimeKey) :
    (initializeKey st key).a = st.a := rfl

@[simp] theorem initializeKey_leftover (st : Poly1305) (key : OneTimeKey) :
    (initializeKey st key).leftover = st.leftover := rfl

@[simp] theorem initializeKey_buffer (st : Poly1305) (key : OneTimeKey) :
    (initializeKey st key).buffer = st.buffer := rfl

@[simp] theorem initializeKey_isFinalized (st : Poly1305) (key : OneTimeKey) :
    (initializeKey st key).isFinalized = st.isFinalized := rfl

-- ---------------------------------------------------------------------------
-- process_block
-- ---------------------------------------------------------------------------

-- `m[i]`: the block's five 26-bit limbs, read from overlapping 32-bit windows; `hibit`
-- goes into the top one.
def msgLimbs (data : List UInt8) (hibit : Nat) : Limbs Nat :=
  ⟨readU32 (slice data 0 4) &&& 0x3ffffff, (readU32 (slice data 3 7) >>> 2) &&& 0x3ffffff,
    (readU32 (slice data 6 10) >>> 4) &&& 0x3ffffff, (readU32 (slice data 9 13) >>> 6) &&& 0x3ffffff,
    (readU32 (slice data 12 16) >>> 8) ||| hibit⟩

-- `// h += m[i]`, limb by limb.
def addMessage (a m : Limbs Nat) : Except Panic (Limbs Nat) := do
  let h0 ← add32 a.l0 m.l0
  let h1 ← add32 a.l1 m.l1
  let h2 ← add32 a.l2 m.l2
  let h3 ← add32 a.l3 m.l3
  let h4 ← add32 a.l4 m.l4
  .ok ⟨h0, h1, h2, h3, h4⟩

-- One `d` of `h *= r`: five `u64` products, summed left to right.
def dot5 (h0 x0 h1 x1 h2 x2 h3 x3 h4 x4 : Nat) : Except Panic Nat := do
  let e ← add64 (← mul64 h0 x0) (← mul64 h1 x1)
  let e ← add64 e (← mul64 h2 x2)
  let e ← add64 e (← mul64 h3 x3)
  add64 e (← mul64 h4 x4)

-- `let s1: u32 = r1 * 5; ...` and `// h *= r`: the schoolbook product, where a limb
-- product of weight `2 ^ 130` or more comes back down through `s_i = r_i * 5`.
def mulR (h r : Limbs Nat) : Except Panic (Limbs Nat) := do
  let s1 ← mul32 r.l1 5
  let s2 ← mul32 r.l2 5
  let s3 ← mul32 r.l3 5
  let s4 ← mul32 r.l4 5
  let d0 ← dot5 h.l0 r.l0 h.l1 s4 h.l2 s3 h.l3 s2 h.l4 s1
  let d1 ← dot5 h.l0 r.l1 h.l1 r.l0 h.l2 s4 h.l3 s3 h.l4 s2
  let d2 ← dot5 h.l0 r.l2 h.l1 r.l1 h.l2 r.l0 h.l3 s4 h.l4 s3
  let d3 ← dot5 h.l0 r.l3 h.l1 r.l2 h.l2 r.l1 h.l3 r.l0 h.l4 s4
  let d4 ← dot5 h.l0 r.l4 h.l1 r.l3 h.l2 r.l2 h.l3 r.l1 h.l4 r.l0
  .ok ⟨d0, d1, d2, d3, d4⟩

-- `d += c as u64; c = (d >> 26) as u32; h = (d & 0x3ffffff) as u32;`, giving `(c, h)`.
def carryStep (d c : Nat) : Except Panic (Nat × Nat) := do
  let d ← add64 d c
  .ok (asU32 (d >>> 26), asU32 (d &&& 0x3ffffff))

-- `// (partial) h %= p`: carry through the limbs, the carry out of the top limb coming
-- back, times 5, into the bottom one.
def partialReduce (d : Limbs Nat) : Except Panic (Limbs Nat) := do
  let c := asU32 (d.l0 >>> 26)
  let h0 := asU32 (d.l0 &&& 0x3ffffff)
  let (c, h1) ← carryStep d.l1 c
  let (c, h2) ← carryStep d.l2 c
  let (c, h3) ← carryStep d.l3 c
  let (c, h4) ← carryStep d.l4 c
  let h0 ← add32 h0 (← mul32 c 5)
  let c := h0 >>> 26
  let h0 := h0 &&& 0x3ffffff
  let h1 ← add32 h1 c
  .ok ⟨h0, h1, h2, h3, h4⟩

/-- `process_block`: `a ← (a + block) * r`, partially reduced modulo `2 ^ 130 - 5`. The
high bit `2 ^ 128` is added unless the state is finalized. -/
def processBlock (st : Poly1305) (data : List UInt8) :
    Except Panic (Except UnknownCryptoError Poly1305) :=
  if data.length ≠ poly1305Blocksize then .ok (.error {}) else do
  let hibit : Nat := if st.isFinalized then 0 else 1 <<< 24
  let h ← addMessage st.a.toNat (msgLimbs data hibit)
  let d ← mulR h st.r.toNat
  let h ← partialReduce d
  .ok (.ok { st with a := Limbs.ofNat h })

-- ---------------------------------------------------------------------------
-- process_end_of_stream
-- ---------------------------------------------------------------------------

-- `h += c; c = h >> 26; h = h & 0x3ffffff;`, giving `(c, h)`.
def fullCarryStep (h c : Nat) : Except Panic (Nat × Nat) := do
  let h ← add32 h c
  .ok (h >>> 26, h &&& 0x3ffffff)

-- `// full carry h`: every limb below `2 ^ 26`.
def fullCarry (h : Limbs Nat) : Except Panic (Limbs Nat) := do
  let c := h.l1 >>> 26
  let h1 := h.l1 &&& 0x3ffffff
  let (c, h2) ← fullCarryStep h.l2 c
  let (c, h3) ← fullCarryStep h.l3 c
  let (c, h4) ← fullCarryStep h.l4 c
  let (c, h0) ← fullCarryStep h.l0 (← mul32 c 5)
  let h1 ← add32 h1 c
  .ok ⟨h0, h1, h2, h3, h4⟩

-- `g = h.wrapping_add(c); c = g >> 26; g &= 0x3ffffff;`, giving `(c, g)`.
def minusPStep (h c : Nat) : Nat × Nat :=
  let g := wrappingAdd32 h c
  (g >>> 26, g &&& 0x3ffffff)

-- `// compute h + -p`: `g = h + 5 - 2 ^ 130`, its top limb wrapping below zero when
-- `h < p`.
def minusP (h : Limbs Nat) : Limbs Nat :=
  let (c, g0) := minusPStep h.l0 5
  let (c, g1) := minusPStep h.l1 c
  let (c, g2) := minusPStep h.l2 c
  let (c, g3) := minusPStep h.l3 c
  let g4 := wrappingSub32 (wrappingAdd32 h.l4 c) (1 <<< 26)
  ⟨g0, g1, g2, g3, g4⟩

-- `// select h if h < p, or h + -p if h >= p`, through a mask made from the sign bit of
-- `g4`, with no branch.
def select (h g : Limbs Nat) : Limbs Nat :=
  let mask := wrappingSub32 (g.l4 >>> (32 - 1)) 1
  let g := g.map (· &&& mask)
  let mask := not32 mask
  ⟨(h.l0 &&& mask) ||| g.l0, (h.l1 &&& mask) ||| g.l1, (h.l2 &&& mask) ||| g.l2,
    (h.l3 &&& mask) ||| g.l3, (h.l4 &&& mask) ||| g.l4⟩

-- `// h = h % (2^128)`: the five 26-bit limbs repacked as four 32-bit words.
def pack (h : Limbs Nat) : Words Nat :=
  ⟨(h.l0 ||| shl32 h.l1 26) &&& 0xffffffff, ((h.l1 >>> 6) ||| shl32 h.l2 20) &&& 0xffffffff,
    ((h.l2 >>> 12) ||| shl32 h.l3 14) &&& 0xffffffff, ((h.l3 >>> 18) ||| shl32 h.l4 8) &&& 0xffffffff⟩

-- `f = (h as u64) + (s as u64) + (f >> 32)`.
def padStep (h s f : Nat) : Except Panic Nat := do
  add64 (← add64 h s) (f >>> 32)

-- `// mac = (h + pad) % (2^128)`: a 128-bit addition, word by word with carries.
def addPad (h s : Words Nat) : Except Panic (Words Nat) := do
  let f ← add64 h.w0 s.w0
  let h0 := asU32 f
  let f ← padStep h.w1 s.w1 f
  let h1 := asU32 f
  let f ← padStep h.w2 s.w2 f
  let h2 := asU32 f
  let f ← padStep h.w3 s.w3 f
  let h3 := asU32 f
  .ok ⟨h0, h1, h2, h3⟩

/-- `process_end_of_stream`: fully reduce `a` modulo `2 ^ 130 - 5`, add the pad `s` modulo
`2 ^ 128`, and leave the tag's four words in `a[0..4]`. -/
def processEndOfStream (st : Poly1305) : Except Panic Poly1305 := do
  let h ← fullCarry st.a.toNat
  let h := select h (minusP h)
  let t ← addPad (pack h) st.s.toNat
  .ok { st with a := { st.a with l0 := .ofNat t.w0, l1 := .ofNat t.w1, l2 := .ofNat t.w2,
                                  l3 := .ofNat t.w3 } }

-- ---------------------------------------------------------------------------
-- reset, update, finalize
-- ---------------------------------------------------------------------------

/-- `reset`: back to the state `init` gives, keeping `r` and `s`. -/
def reset (st : Poly1305) : Poly1305 :=
  { st with a := ⟨0, 0, 0, 0, 0⟩, leftover := 0, isFinalized := false,
            buffer := Mathlib.Vector.replicate _ 0 }

-- `for (idx, itm) in bytes.iter().enumerate() { buffer[start + idx] = *itm; }`
def copyInto (buffer : Mathlib.Vector UInt8 n) (start : Nat) :
    List UInt8 → Except Panic (Mathlib.Vector UInt8 n)
  | [] => .ok buffer
  | b :: bs => do copyInto (← setAt buffer start b) (start + 1) bs

-- The `while bytes.len() >= POLY1305_BLOCKSIZE` loop of `update`: every whole block is
-- absorbed straight from the input.
def absorbBlocks (st : Poly1305) (bytes : List UInt8) : Except Panic (Poly1305 × List UInt8) :=
  if poly1305Blocksize ≤ bytes.length then do
    let st ← unwrap (← st.processBlock (slice bytes 0 poly1305Blocksize))
    absorbBlocks st (bytes.drop poly1305Blocksize)
  else .ok (st, bytes)
termination_by bytes.length
decreasing_by simp only [poly1305Blocksize, List.length_drop] at *; omega

-- The end of `update`: the loop over whole blocks, then the rest into the buffer.
def absorbRest (st : Poly1305) (bytes : List UInt8) :
    Except Panic (Except FinalizationCryptoError Unit × Poly1305) := do
  let (st, bytes) ← absorbBlocks st bytes
  let buffer ← copyPrefix st.buffer bytes
  .ok (.ok (), { st with buffer := buffer, leftover := bytes.length })

/-- `update`: first fill the buffer up to a block, then absorb whole blocks, then keep the
rest in the buffer. -/
def update (st : Poly1305) (data : List UInt8) :
    Except Panic (Except FinalizationCryptoError Unit × Poly1305) :=
  if st.isFinalized then .ok (.error {}, st)
  else if st.leftover ≠ 0 then do
    let want := min (← checkedSub poly1305Blocksize st.leftover) data.length
    let buffer ← copyInto st.buffer st.leftover (data.take want)
    let st := { st with buffer := buffer, leftover := st.leftover + want }
    if st.leftover < poly1305Blocksize then .ok (.ok (), st)
    else do
      let st ← unwrap (← st.processBlock st.buffer.toList)
      absorbRest { st with leftover := 0 } (data.drop want)
  else absorbRest st data

-- `for buf_itm in local_buffer.iter_mut().take(POLY1305_BLOCKSIZE).skip(start) { *buf_itm = 0u8; }`
def zeroFrom (buffer : Mathlib.Vector UInt8 n) (start : Nat) : Mathlib.Vector UInt8 n :=
  ⟨buffer.toList.take start ++ List.replicate (n - start) 0, by simp; omega⟩

-- `if self.leftover != 0 { ... }` of `finalize`: the buffered bytes, padded with a `1` byte
-- and zeros in a copy of the buffer, go through `process_block`.
def processLastBlock (st : Poly1305) : Except Panic Poly1305 :=
  if st.leftover ≠ 0 then do
    let localBuffer ← setAt st.buffer st.leftover 1
    let localBuffer := zeroFrom localBuffer (st.leftover + 1)
    unwrap (← st.processBlock localBuffer.toList)
  else .ok st

/-- `finalize`: absorb the buffered bytes, without the high bit since the state is already
marked finalized, then reduce and add the pad. -/
def finalize (st : Poly1305) : Except Panic (Except FinalizationCryptoError Tag × Poly1305) :=
  if st.isFinalized then .ok (.error {}, st) else do
  let st ← processLastBlock { st with isFinalized := true }
  let st ← st.processEndOfStream
  let tag ← unwrap (MacTag.fromSlice
    (writeU32Into [st.a.l0.toNat, st.a.l1.toNat, st.a.l2.toNat, st.a.l3.toNat]))
  .ok (.ok tag, st)

def step (st : Poly1305) : Call → Except Panic (Returned Tag × Poly1305)
  | .update data => (st.update data).map fun (r, st) => (r.map fun _ => none, st)
  | .finalize => st.finalize.map fun (r, st) => (r.map some, st)
  | .reset => .ok (.ok none, st.reset)

-- ---------------------------------------------------------------------------
-- init, poly1305, verify
-- ---------------------------------------------------------------------------

/-- `init`: a zero state, then `initialize`. -/
def init (oneTimeKey : OneTimeKey) : Poly1305 :=
  initializeKey
    { a := ⟨0, 0, 0, 0, 0⟩, r := ⟨0, 0, 0, 0, 0⟩, s := ⟨0, 0, 0, 0⟩, leftover := 0,
      buffer := Mathlib.Vector.replicate _ 0, isFinalized := false }
    oneTimeKey

/-- `poly1305`: the one-shot tag, `init`, `update`, `finalize`, each unwrapped. -/
def poly1305 (oneTimeKey : OneTimeKey) (data : List UInt8) :
    Except Panic (Except UnknownCryptoError Tag) := do
  let (r, st) ← (init oneTimeKey).update data
  let _ ← unwrap r
  let (r, _) ← st.finalize
  .ok (.ok (← unwrap r))

/-- `verify`: recompute the tag and compare; a mismatch is an error, never `Ok(false)`. -/
def verify (expected : Tag) (oneTimeKey : OneTimeKey) (data : List UInt8) :
    Except Panic (Except ValidationCryptoError Bool) := do
  match ← poly1305 oneTimeKey data with
  | .error _ => .ok (.error {})
  | .ok tag => .ok (if tag = expected then .ok true else .error {})

end Poly1305

end OrionMac
