/-!
# BLAKE3

The hash function BLAKE3 with an output of 32 bytes. The input is cut into chunks of 1024 bytes,
each of them into blocks of 64 bytes; the chunks are the leaves of a binary tree in which a left
subtree is complete and holds more than half of the chunks or exactly half of them.
-/
namespace PipelineScripts.Blake3

/-- Words that make up a state. -/
abbrev Words := Array UInt32

def initialWords : Words :=
  #[0x6A09E667, 0xBB67AE85, 0x3C6EF372, 0xA54FF53A, 0x510E527F, 0x9B05688C, 0x1F83D9AB, 0x5BE0CD19]

/-- The order in which a round takes the words of the round before. -/
def permutation : List Nat := [2, 6, 3, 10, 7, 0, 4, 13, 1, 11, 12, 5, 9, 14, 15, 8]

def chunkStart : UInt32 := 1
def chunkEnd : UInt32 := 2
def parentNode : UInt32 := 4
def rootNode : UInt32 := 8

def blockSize : Nat := 64
def chunkSize : Nat := 1024

def rotateRight (w : UInt32) (n : UInt32) : UInt32 := (w >>> n) ||| (w <<< (32 - n))

def word (ws : Words) (i : Nat) : UInt32 := ws[i]?.getD 0

/-- Mixes two message words into four words of the state. -/
def mix (s : Words) (a b c d : Nat) (x y : UInt32) : Words :=
  let va := word s a + word s b + x
  let vd := rotateRight (word s d ^^^ va) 16
  let vc := word s c + vd
  let vb := rotateRight (word s b ^^^ vc) 12
  let va := va + vb + y
  let vd := rotateRight (vd ^^^ va) 8
  let vc := vc + vd
  let vb := rotateRight (vb ^^^ vc) 7
  (((s.setIfInBounds a va).setIfInBounds b vb).setIfInBounds c vc).setIfInBounds d vd

/-- One round: the columns, then the diagonals. -/
def round (s m : Words) : Words :=
  let s := mix s 0 4 8 12 (word m 0) (word m 1)
  let s := mix s 1 5 9 13 (word m 2) (word m 3)
  let s := mix s 2 6 10 14 (word m 4) (word m 5)
  let s := mix s 3 7 11 15 (word m 6) (word m 7)
  let s := mix s 0 5 10 15 (word m 8) (word m 9)
  let s := mix s 1 6 11 12 (word m 10) (word m 11)
  let s := mix s 2 7 8 13 (word m 12) (word m 13)
  mix s 3 4 9 14 (word m 14) (word m 15)

def permute (m : Words) : Words := (permutation.map (word m)).toArray

/-- Runs rounds, with the message permuted between two of them. -/
def rounds : Nat → Words → Words → Words
  | 0, s, _ => s
  | n + 1, s, m => rounds n (round s m) (permute m)

/-- Compresses a block of sixteen words into a chaining value of eight. -/
def compress (chaining message : Words) (counter : UInt64) (length flags : UInt32) : Words :=
  let s := chaining ++ (initialWords.extract 0 4) ++
    #[counter.toUInt32, (counter >>> 32).toUInt32, length, flags]
  let s := rounds 7 s message
  ((List.range 8).map fun i => word s i ^^^ word s (i + 8)).toArray

/-- Little-endian words, with zeros for missing bytes. -/
def wordsOf (count : Nat) (bytes : List UInt8) : Words :=
  ((List.range count).map fun i =>
    ((bytes.drop (4 * i)).take 4).foldr (fun b (w : UInt32) => (w <<< 8) ||| b.toUInt32) 0).toArray

/-- Cuts bytes into pieces of a size; at least one. -/
def pieces (size : Nat) : Nat → List UInt8 → List (List UInt8)
  | 0, bytes => [bytes]
  | fuel + 1, bytes =>
    if bytes.length ≤ size then [bytes]
    else bytes.take size :: pieces size fuel (bytes.drop size)

/-- The chaining value of a chunk. -/
def chunkValue (bytes : List UInt8) (counter : UInt64) (root : UInt32) : Words :=
  let blocks := pieces blockSize bytes.length bytes
  let last := blocks.length - 1
  blocks.zipIdx.foldl
    (fun chaining (block, i) =>
      let flags := (if i = 0 then chunkStart else 0) |||
        (if i = last then chunkEnd ||| root else 0)
      compress chaining (wordsOf 16 block) counter block.length.toUInt32 flags)
    initialWords

/-- The largest power of two below `n`, found in at most `fuel` doublings of `p`. -/
def powerBelow : Nat → Nat → Nat → Nat
  | 0, p, _ => p
  | fuel + 1, p, n => if 2 * p < n then powerBelow fuel (2 * p) n else p

/-- The value of a subtree over chunks, the first of which has a number. -/
def treeValue : Nat → List (List UInt8) → Nat → UInt32 → Words
  | 0, _, _, _ => initialWords
  | fuel + 1, chunks, first, root =>
    match chunks with
    | [] => initialWords
    | [chunk] => chunkValue chunk first.toUInt64 root
    | chunks =>
      let n := powerBelow chunks.length 1 chunks.length
      let left := treeValue fuel (chunks.take n) first 0
      let right := treeValue fuel (chunks.drop n) (first + n) 0
      compress initialWords (left ++ right) 0 64 (parentNode ||| root)

/-- The hash as eight words. -/
def hash (bytes : List UInt8) : Words :=
  let chunks := pieces chunkSize bytes.length bytes
  treeValue (chunks.length + 1) chunks 0 rootNode

/-- The hash in small hexadecimal digits. -/
def hexHash (bytes : List UInt8) : String :=
  let digit := fun (n : UInt32) => Nat.digitChar n.toNat
  let byte := fun (b : UInt32) => [digit (b >>> 4), digit (b &&& 15)]
  let wordText := fun (w : UInt32) =>
    byte (w &&& 255) ++ byte ((w >>> 8) &&& 255) ++ byte ((w >>> 16) &&& 255) ++ byte (w >>> 24)
  String.ofList ((hash bytes).toList.flatMap wordText)

end PipelineScripts.Blake3
