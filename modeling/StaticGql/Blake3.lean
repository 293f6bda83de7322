import StaticGql.Number.Binary64

/-!
The BLAKE3 hash with 256 bits of output. The input is cut into chunks of 1024 bytes and these into
blocks of 64; each chunk gives eight words, and neighbours are combined in pairs up to one root.

Fingerprints of files, which tell whether a file has changed.
-/

namespace StaticGql.Blake3

abbrev Words (n : Nat) := Vector UInt32 n

def iv : Words 8 :=
  #v[0x6A09E667, 0xBB67AE85, 0x3C6EF372, 0xA54FF53A, 0x510E527F, 0x9B05688C, 0x1F83D9AB,
    0x5BE0CD19]

def permutation : Vector (Fin 16) 16 := #v[2, 6, 3, 10, 7, 0, 4, 13, 1, 11, 12, 5, 9, 14, 15, 8]

def chunkStart : UInt32 := 1
def chunkEnd : UInt32 := 2
def parentNode : UInt32 := 4
def rootNode : UInt32 := 8

def rotr (x : UInt32) (n : UInt32) : UInt32 := (x >>> n) ||| (x <<< (32 - n))

/-- The quarter round on four words of the state. -/
def mix (s : Words 16) (a b c d : Fin 16) (x y : UInt32) : Words 16 :=
  let s := s.set a (s[a] + s[b] + x)
  let s := s.set d (rotr (s[d] ^^^ s[a]) 16)
  let s := s.set c (s[c] + s[d])
  let s := s.set b (rotr (s[b] ^^^ s[c]) 12)
  let s := s.set a (s[a] + s[b] + y)
  let s := s.set d (rotr (s[d] ^^^ s[a]) 8)
  let s := s.set c (s[c] + s[d])
  s.set b (rotr (s[b] ^^^ s[c]) 7)

def round (s m : Words 16) : Words 16 :=
  let s := mix s 0 4 8 12 m[0] m[1]
  let s := mix s 1 5 9 13 m[2] m[3]
  let s := mix s 2 6 10 14 m[4] m[5]
  let s := mix s 3 7 11 15 m[6] m[7]
  let s := mix s 0 5 10 15 m[8] m[9]
  let s := mix s 1 6 11 12 m[10] m[11]
  let s := mix s 2 7 8 13 m[12] m[13]
  mix s 3 4 9 14 m[14] m[15]

def permute (m : Words 16) : Words 16 := permutation.map fun i => m[i]

def rounds : Nat → Words 16 → Words 16 → Words 16
  | 0, s, _ => s
  | n + 1, s, m => rounds n (round s m) (permute m)

/-- The chaining value after one block. -/
def compress (cv : Words 8) (block : Words 16) (counter : Nat) (size flags : UInt32) : Words 8 :=
  let s : Words 16 :=
    #v[cv[0], cv[1], cv[2], cv[3], cv[4], cv[5], cv[6], cv[7], iv[0], iv[1], iv[2], iv[3],
      counter.toUInt32, (counter / twoTo 32).toUInt32, size, flags]
  let s := rounds 7 s block
  Vector.ofFn fun (i : Fin 8) => s[i.val] ^^^ s[i.val + 8]

/-- Words of four bytes, the lowest first; missing bytes are zero. -/
def wordsOfBytes (bytes : List UInt8) : Words 16 :=
  let a := bytes.toArray
  Vector.ofFn fun (i : Fin 16) =>
    let byte (k : Nat) : UInt32 := (a.getD (4 * i.val + k) 0).toUInt32
    byte 0 ||| (byte 1 <<< 8) ||| (byte 2 <<< 16) ||| (byte 3 <<< 24)

/-- Pieces of at most `size` elements; there is always at least one. -/
def pieces {α : Type} (size : Nat) : Nat → List α → List (List α)
  | 0, l => [l]
  | fuel + 1, l =>
    if l.length ≤ size then [l] else l.take size :: pieces size fuel (l.drop size)

/-- The blocks of one chunk, the flags of the first and of the last being special. -/
def chunkBlocks (counter : Nat) (last : UInt32) : Bool → Words 8 → List (List UInt8) → Words 8
  | _, cv, [] => cv
  | first, cv, block :: rest =>
    let flags :=
      (if first then chunkStart else 0) ||| (if rest.isEmpty then chunkEnd ||| last else 0)
    chunkBlocks counter last false
      (compress cv (wordsOfBytes block) counter block.length.toUInt32 flags) rest

def chunk (counter : Nat) (last : UInt32) (bytes : List UInt8) : Words 8 :=
  chunkBlocks counter last true iv (pieces 64 16 bytes)

def parent (flags : UInt32) (l r : Words 8) : Words 8 :=
  compress iv (l ++ r) 0 64 (parentNode ||| flags)

def pairUp : List (Words 8) → List (Words 8)
  | l :: r :: rest => parent 0 l r :: pairUp rest
  | rest => rest

def root : Nat → List (Words 8) → Words 8
  | _, [l, r] => parent rootNode l r
  | 0, _ => iv
  | fuel + 1, nodes => root fuel (pairUp nodes)

def words (bytes : List UInt8) : Words 8 :=
  match pieces 1024 bytes.length bytes with
  | [only] => chunk 0 rootNode only
  | chunks => root chunks.length (chunks.zipIdx.map fun (c, i) => chunk i 0 c)

def hexByte (n : Nat) : List Char := [Nat.digitChar (n / 16), Nat.digitChar (n % 16)]

def hexWord (w : UInt32) : List Char :=
  let n := w.toNat
  hexByte (n % 256) ++ hexByte (n / twoTo 8 % 256) ++ hexByte (n / twoTo 16 % 256) ++
    hexByte (n / twoTo 24)

/-- The hash in lower-case hexadecimal digits. -/
def hex (bytes : List UInt8) : String := String.ofList ((words bytes).toList.flatMap hexWord)

/-- The hash of a text's UTF-8 bytes. -/
def ofText (text : String) : String := hex text.toUTF8.toList

end StaticGql.Blake3

namespace StaticGql

structure Fingerprint where
  hash : String
  /-- In milliseconds; it travels along and decides nothing. -/
  modified : Nat
  size : Nat
  deriving DecidableEq, Repr

namespace Fingerprint

def ofText (text : String) (modified : Nat) : Fingerprint :=
  ⟨Blake3.ofText text, modified, text.utf8ByteSize⟩

/-- Whether two fingerprints are of different contents. -/
def differs (a b : Fingerprint) : Bool := a.hash ≠ b.hash || a.size ≠ b.size

end Fingerprint
end StaticGql
