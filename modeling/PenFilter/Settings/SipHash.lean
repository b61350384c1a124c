/-! # A keyed hash of byte sequences

SipHash with one round for every word and three at the end, under the key zero.  The bytes are
taken eight at a time, the first one lowest; the last word holds what is left and the length of
the whole in its highest byte. -/

namespace PenFilter

namespace SipHash

structure State where
  v0 : UInt64
  v1 : UInt64
  v2 : UInt64
  v3 : UInt64

/-- The state before the first word. -/
def start : State :=
  ⟨0x736f6d6570736575, 0x646f72616e646f6d, 0x6c7967656e657261, 0x7465646279746573⟩

def rotateLeft (x : UInt64) (n : UInt64) : UInt64 := (x <<< n) ||| (x >>> (64 - n))

def round (s : State) : State :=
  let v0 := s.v0 + s.v1
  let v2 := s.v2 + s.v3
  let v1 := rotateLeft s.v1 13 ^^^ v0
  let v3 := rotateLeft s.v3 16 ^^^ v2
  let v0 := rotateLeft v0 32
  let v2 := v2 + v1
  let v0 := v0 + v3
  let v1 := rotateLeft v1 17 ^^^ v2
  let v3 := rotateLeft v3 21 ^^^ v0
  let v2 := rotateLeft v2 32
  ⟨v0, v1, v2, v3⟩

/-- The state after one word. -/
def absorb (s : State) (word : UInt64) : State :=
  let s := round { s with v3 := s.v3 ^^^ word }
  { s with v0 := s.v0 ^^^ word }

def finish (s : State) : UInt64 :=
  let s := round (round (round { s with v2 := s.v2 ^^^ 0xff }))
  s.v0 ^^^ s.v1 ^^^ s.v2 ^^^ s.v3

/-- Up to eight bytes as a word, the first one lowest. -/
def wordOf (bytes : List UInt8) : UInt64 :=
  bytes.foldr (fun b word => (word <<< 8) ||| b.toUInt64) 0

/-- The words of a byte sequence of which `size` bytes are already taken. -/
def words (size : Nat) : List UInt8 → List UInt64
  | a :: b :: c :: d :: e :: f :: g :: h :: rest =>
    wordOf [a, b, c, d, e, f, g, h] :: words (size + 8) rest
  | rest => [wordOf rest ||| (UInt64.ofNat (size + rest.length) <<< 56)]

/-- The hash of a byte sequence. -/
def hash (bytes : List UInt8) : UInt64 := finish ((words 0 bytes).foldl absorb start)

end SipHash

end PenFilter
