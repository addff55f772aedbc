import AluVM.Digest.Sha2

/-! # BLAKE2b

A message is cut into blocks of 128 bytes, the last one filled with zeros. Every block is mixed,
in twelve rounds of eight quarter mixes, into a chain of eight words of 64 bits, together with
the number of bytes read so far and a flag on the last block. The length of the digest is part of
the first chain, so digests of different lengths are unrelated. -/

namespace AluVM.Digest.Blake2b

/-- The chain of eight words. -/
abbrev Chain := Vector UInt64 8

/-- The working words of one block. -/
abbrev Work := Vector UInt64 16

/-- The words of a state. -/
def ofState (s : Sha2.State UInt64) : Chain := #v[s.a, s.b, s.c, s.d, s.e, s.f, s.g, s.h]

/-- The words that every computation starts from; they are those of SHA-512. -/
def start : Chain := ofState Sha2.variant512.initial

/-- The order in which each of ten rounds takes the words of a block. -/
def orders : List (List Nat) := [
  [0, 1, 2, 3, 4, 5, 6, 7, 8, 9, 10, 11, 12, 13, 14, 15],
  [14, 10, 4, 8, 9, 15, 13, 6, 1, 12, 0, 2, 11, 7, 5, 3],
  [11, 8, 12, 0, 5, 2, 15, 13, 10, 14, 3, 6, 7, 1, 9, 4],
  [7, 9, 3, 1, 13, 12, 11, 14, 2, 6, 5, 10, 4, 0, 15, 8],
  [9, 0, 5, 7, 2, 4, 10, 15, 14, 1, 11, 12, 6, 8, 3, 13],
  [2, 12, 6, 10, 0, 11, 8, 3, 4, 13, 7, 5, 15, 14, 1, 9],
  [12, 5, 1, 15, 14, 13, 4, 10, 0, 7, 6, 3, 9, 2, 8, 11],
  [13, 11, 7, 14, 12, 1, 3, 9, 5, 0, 15, 4, 8, 6, 2, 10],
  [6, 15, 14, 9, 11, 3, 0, 8, 12, 2, 13, 7, 1, 4, 10, 5],
  [10, 2, 8, 4, 7, 6, 1, 5, 15, 11, 9, 14, 3, 12, 13, 0]]

/-- A quarter mix of four working words with two words of the block. -/
def quarter (v : Work) (a b c d : Fin 16) (x y : UInt64) : Work :=
  let va := v[a] + v[b] + x
  let vd := Sha2.rotate64 (v[d] ^^^ va) 32
  let vc := v[c] + vd
  let vb := Sha2.rotate64 (v[b] ^^^ vc) 24
  let va := va + vb + y
  let vd := Sha2.rotate64 (vd ^^^ va) 16
  let vc := vc + vd
  let vb := Sha2.rotate64 (vb ^^^ vc) 63
  (((v.set a va).set b vb).set c vc).set d vd

/-- The working words of the eight quarter mixes of a round: the columns, then the diagonals. -/
def quarters : List (Fin 16 × Fin 16 × Fin 16 × Fin 16) :=
  [(0, 4, 8, 12), (1, 5, 9, 13), (2, 6, 10, 14), (3, 7, 11, 15),
    (0, 5, 10, 15), (1, 6, 11, 12), (2, 7, 8, 13), (3, 4, 9, 14)]

/-- One round: the eight quarter mixes take the words of the block two by two in the given order. -/
def round (block : List UInt64) (v : Work) (order : List Nat) : Work :=
  (quarters.zip (Bytes.chunks 2 8 order)).foldl
    (fun v ((a, b, c, d), pair) =>
      quarter v a b c d (block.getD (pair.getD 0 0) 0) (block.getD (pair.getD 1 0) 0)) v

/-- Mixes a block into the chain, after `count` bytes of the message in all. -/
def compress (h : Chain) (block : Bytes) (count : Nat) (last : Bool) : Chain :=
  let words := (Bytes.chunks 8 16 block).map fun bs => UInt64.ofNat (Bytes.toNat bs)
  let final : UInt64 := if last then ~~~0 else 0
  let flags : Chain := #v[0, 0, 0, 0, UInt64.ofNat count, UInt64.ofNat (count >>> 64), final, 0]
  let v : Work := h ++ start.zipWith (· ^^^ ·) flags
  let v := (orders ++ orders.take 2).foldl (round words) v
  Vector.ofFn fun i => h[i] ^^^ v[i.val] ^^^ v[i.val + 8]

/-- Mixes the blocks of a message, `count` bytes of which are already mixed. -/
def absorb (h : Chain) (count : Nat) : (blocks : Nat) → Bytes → Chain
  | 0, message =>
    compress h (message ++ List.replicate (128 - message.length) 0) (count + message.length) true
  | blocks + 1, message =>
    absorb (compress h (message.take 128) (count + 128) false) (count + 128) blocks
      (message.drop 128)

/-- The digest of `size` bytes. -/
def digest (size : Nat) (message : Bytes) : Bytes :=
  let first := start.set 0 (start[0] ^^^ UInt64.ofNat (0x01010000 + size))
  let chain := absorb first 0 ((message.length - 1) / 128) message
  (chain.toList.flatMap fun w => Bytes.ofNat 8 w.toNat).take size

end AluVM.Digest.Blake2b
