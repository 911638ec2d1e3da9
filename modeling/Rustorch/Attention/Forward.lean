import Rustorch.Lib.Chunks
import Rustorch.Lib.Extended
import Rustorch.Lib.Rows

/-!
# Attention forward

The masked forward kernels of the attention crate: `flash_forward_masked`, which walks over tiles
of keys with a running softmax for each query row, and `naive_forward_masked`, which takes the
softmax of whole score rows.

Buffers hold values of an exact field with `-∞` and NaN.  `exp`, `sqrt` and the `gemm` routine are
parameters.  Sizes are natural numbers and memory does not run out.  A tile loop with tiles of size
`0` does not end; the loops take fuel, and have no result without enough of it.
-/

namespace Rustorch
namespace Attention

open Rows List Extended

/-! ## Shape and mask -/

structure AttentionShape where
  batch : Nat
  heads : Nat
  seq : Nat
  dim : Nat
  br : Nat
  bc : Nat

namespace AttentionShape

/-- Square tiles of 64 rows. -/
def new (batch heads seq dim : Nat) : AttentionShape where
  batch := batch
  heads := heads
  seq := seq
  dim := dim
  br := 64
  bc := 64

def bufferLen (shape : AttentionShape) : Nat :=
  shape.batch * shape.heads * shape.seq * shape.dim

/-- Strides for the `[batch, heads, seq, dim]` layout, the outermost first. -/
def strides (shape : AttentionShape) : Nat × Nat × Nat :=
  let sN := shape.dim
  let sH := shape.seq * sN
  let sB := shape.heads * sH
  (sB, sH, sN)

end AttentionShape

inductive Mask
  | none
  | causal
  | padding (keep : List Bool)
  deriving DecidableEq

inductive MaskError
  | paddingLengthMismatch (expected got : Nat)
  deriving DecidableEq

namespace Mask

/-- Query `qi` does not see key `kj`. -/
def isMasked : Mask → Nat → Nat → Bool
  | none, _, _ => false
  | causal, qi, kj => kj > qi
  | padding keep, _, kj => kj < keep.length && !keep.getD kj true

def validate : Mask → Nat → Except MaskError Unit
  | none, _ => .ok ()
  | causal, _ => .ok ()
  | padding keep, seq =>
    if keep.length = seq then .ok () else .error (.paddingLengthMismatch seq keep.length)

end Mask

inductive AttentionError
  | bufferShapeMismatch (which : String) (expected got : Nat)
  | outputShapeMismatch (expected got : Nat)
  | zeroDim
  | mask (e : MaskError)
  deriving DecidableEq

variable {F : Type}

def validate (shape : AttentionShape) (q k v out : List (Extended F)) :
    Except AttentionError Unit :=
  if shape.dim = 0 then
    .error .zeroDim
  else
    let expected := shape.bufferLen
    match [("q", q), ("k", k), ("v", v)].find? fun buf => buf.2.length ≠ expected with
    | some (which, buf) => .error (.bufferShapeMismatch which expected buf.length)
    | none =>
      if out.length ≠ expected then
        .error (.outputShapeMismatch expected out.length)
      else
        .ok ()

/-! ## The matrix routine -/

/-- The cell of a buffer; `validate` keeps every access of the kernels in range. -/
def read (xs : List (Extended F)) (i : Nat) : Extended F :=
  xs.getD i .nan

/-- A matrix in a buffer, with its column and row stride. -/
structure Strided (F : Type) where
  buf : List (Extended F)
  cs : Nat
  rs : Nat

def Strided.cell (a : Strided F) (i j : Nat) : Extended F :=
  read a.buf (i * a.rs + j * a.cs)

/-- `gemm::gemm m n k dst read_dst lhs rhs alpha beta`, with the destination it leaves. -/
abbrev Gemm (F : Type) : Type :=
  Nat → Nat → Nat → Strided F → Bool → Strided F → Strided F → F → F → List (Extended F)

/-- Where the operands are finite, a cell becomes `alpha * dst + beta * lhs * rhs`, without its old
value if the destination is not read. -/
structure ExactGemm [Semiring F] (gemm : Gemm F) : Prop where
  length_eq : ∀ m n k dst readDst lhs rhs alpha beta,
    (gemm m n k dst readDst lhs rhs alpha beta).length = dst.buf.length
  cell_eq : ∀ {m n k : Nat} {dst : Strided F} {readDst : Bool} {lhs rhs : Strided F}
    {alpha beta : F} {i j : Nat} {c : F} {a b : Nat → F},
    dst.cs = 1 → n ≤ dst.rs → m * dst.rs ≤ dst.buf.length → i < m → j < n →
      (readDst = true → dst.cell i j = .fin c) →
      (∀ kk < k, lhs.cell i kk = .fin (a kk)) → (∀ kk < k, rhs.cell kk j = .fin (b kk)) →
        read (gemm m n k dst readDst lhs rhs alpha beta) (i * dst.rs + j) =
          .fin ((if readDst then alpha * c else 0) + beta * ∑ kk ∈ Finset.range k, a kk * b kk)

section Tiles

variable [Field F] [LinearOrder F] (exp sqrt : F → F) (gemm : Gemm F)

/-- `S = alpha · Q · Kᵀ`: the key tile is read with its strides exchanged. -/
def sgemmScoreTile (m n k : Nat) (alpha : F) (q : List (Extended F)) (ldq : Nat)
    (kBuf : List (Extended F)) (ldk : Nat) (s : List (Extended F)) (lds : Nat) :
    List (Extended F) :=
  gemm m n k { buf := s, cs := 1, rs := lds } false { buf := q, cs := 1, rs := ldq }
    { buf := kBuf, cs := ldk, rs := 1 } 0 alpha

/-- `O += P · V`. -/
def sgemmValueAccumulate (m n k : Nat) (p : List (Extended F)) (ldp : Nat)
    (v : List (Extended F)) (ldv : Nat) (o : List (Extended F)) (ldo : Nat) :
    List (Extended F) :=
  gemm m n k { buf := o, cs := 1, rs := ldo } true { buf := p, cs := 1, rs := ldp }
    { buf := v, cs := 1, rs := ldv } 1 1

/-! ## The tiled kernel -/

structure FlashTileArgs (F : Type) where
  scale : F
  seq : Nat
  dim : Nat
  br : Nat
  bc : Nat
  sN : Nat

/-- The scratch buffers of one `(batch, head)` pair. -/
structure FlashBuffers (F : Type) where
  sBuf : List (Extended F)
  pBuf : List (Extended F)
  oBuf : List (Extended F)
  mBuf : List (Extended F)
  lBuf : List (Extended F)

def FlashBuffers.new (args : FlashTileArgs F) : FlashBuffers F where
  sBuf := replicate (args.br * args.bc) (.fin 0)
  pBuf := replicate (args.br * args.bc) (.fin 0)
  oBuf := replicate (args.br * args.dim) (.fin 0)
  mBuf := replicate args.br .negInf
  lBuf := replicate args.br (.fin 0)

def resetRow (dim : Nat) (bufs : FlashBuffers F) (r : Nat) : FlashBuffers F :=
  { bufs with
    mBuf := bufs.mBuf.set r .negInf
    lBuf := bufs.lBuf.set r (.fin 0)
    oBuf := writeAt (r * dim) (replicate dim (.fin 0)) bufs.oBuf }

def resetRows (dim brUsed : Nat) (bufs : FlashBuffers F) : FlashBuffers F :=
  (range brUsed).foldl (resetRow dim) bufs

/-- The scores of a query tile against a key tile. -/
def scoreTile (args : FlashTileArgs F) (q k : List (Extended F))
    (qBase kBase qi brUsed kj bcUsed : Nat) (bufs : FlashBuffers F) : FlashBuffers F :=
  { bufs with
    sBuf := writeAt 0
      (sgemmScoreTile gemm brUsed bcUsed args.dim args.scale (q.drop (qBase + qi * args.sN)) args.sN
        (k.drop (kBase + kj * args.sN)) args.sN (bufs.sBuf.take (brUsed * bcUsed)) bcUsed)
      bufs.sBuf }

def maskRow (mask : Mask) (qi kj bcUsed : Nat) (s : List (Extended F)) (r : Nat) :
    List (Extended F) :=
  writeAt (r * bcUsed)
    ((row bcUsed r s).mapIdx fun c cell =>
      if mask.isMasked (qi + r) (kj + c) then .negInf else cell) s

def maskTile (mask : Mask) (qi brUsed kj bcUsed : Nat) (bufs : FlashBuffers F) : FlashBuffers F :=
  if mask = .none then
    bufs
  else
    { bufs with sBuf := (range brUsed).foldl (maskRow mask qi kj bcUsed) bufs.sBuf }

/-- What a key tile makes of one row: its maximum, its denominator, its rescaled accumulator, and
the weights of the tile. -/
structure OnlineRow (F : Type) where
  m : Extended F
  l : Extended F
  o : List (Extended F)
  p : List (Extended F)

def onlineRow (sRow : List (Extended F)) (mPrev l : Extended F) (oRow : List (Extended F)) :
    OnlineRow F :=
  let mTile := sRow.foldl (fun m x => if lt m x then x else m) .negInf
  let mNew := if lt mPrev mTile then mTile else mPrev
  let alpha := if mPrev = .negInf then .fin 0 else Extended.exp exp (mPrev - mNew)
  let l := if alpha ≠ .fin 1 then l * alpha else l
  let oRow := if alpha ≠ .fin 1 then oRow.map (· * alpha) else oRow
  let pRow := sRow.map fun x => Extended.exp exp (x - mNew)
  let tileL := pRow.foldl (· + ·) (.fin 0)
  { m := mNew, l := l + tileL, o := oRow, p := pRow }

def onlineSoftmax (dim bcUsed : Nat) (bufs : FlashBuffers F) (r : Nat) : FlashBuffers F :=
  let new := onlineRow exp (row bcUsed r bufs.sBuf) (read bufs.mBuf r) (read bufs.lBuf r)
    (row dim r bufs.oBuf)
  { bufs with
    pBuf := writeAt (r * bcUsed) new.p bufs.pBuf
    oBuf := writeAt (r * dim) new.o bufs.oBuf
    mBuf := bufs.mBuf.set r new.m
    lBuf := bufs.lBuf.set r new.l }

def accumulateTile (args : FlashTileArgs F) (v : List (Extended F)) (vBase brUsed kj bcUsed : Nat)
    (bufs : FlashBuffers F) : FlashBuffers F :=
  { bufs with
    oBuf := writeAt 0
      (sgemmValueAccumulate gemm brUsed args.dim bcUsed (bufs.pBuf.take (brUsed * bcUsed)) bcUsed
        (v.drop (vBase + kj * args.sN)) args.sN (bufs.oBuf.take (brUsed * args.dim)) args.dim)
      bufs.oBuf }

/-- One turn of the loop over key tiles. -/
def keyTile (args : FlashTileArgs F) (mask : Mask) (q k v : List (Extended F))
    (qBase kBase vBase qi brUsed kj bcUsed : Nat) (bufs : FlashBuffers F) : FlashBuffers F :=
  let bufs := scoreTile gemm args q k qBase kBase qi brUsed kj bcUsed bufs
  let bufs := maskTile mask qi brUsed kj bcUsed bufs
  let bufs := (range brUsed).foldl (onlineSoftmax exp args.dim bcUsed) bufs
  accumulateTile gemm args v vBase brUsed kj bcUsed bufs

def keyLoop (args : FlashTileArgs F) (mask : Mask) (q k v : List (Extended F))
    (qBase kBase vBase qi brUsed : Nat) :
    Nat → Nat → FlashBuffers F → Option (FlashBuffers F)
  | 0, _, _ => none
  | fuel + 1, kj, bufs =>
    if kj < args.seq then
      let kjEnd := min (kj + args.bc) args.seq
      keyLoop args mask q k v qBase kBase vBase qi brUsed fuel kjEnd
        (keyTile exp gemm args mask q k v qBase kBase vBase qi brUsed kj (kjEnd - kj) bufs)
    else
      some bufs

/-- The normalised output of one row. -/
def outputRow (args : FlashTileArgs F) (bufs : FlashBuffers F) (r : Nat) : List (Extended F) :=
  let l := read bufs.lBuf r
  if lt (.fin 0) l && l.isFinite then
    let invL := .fin 1 / l
    (row args.dim r bufs.oBuf).map (· * invL)
  else
    replicate args.dim .nan

def writeBack (args : FlashTileArgs F) (qi brUsed : Nat) (bufs : FlashBuffers F)
    (outSlab : List (Extended F)) : List (Extended F) :=
  (range brUsed).foldl
    (fun slab r => writeAt ((qi + r) * args.sN) (outputRow args bufs r) slab) outSlab

def queryLoop (args : FlashTileArgs F) (mask : Mask) (q k v : List (Extended F))
    (qBase kBase vBase keyFuel : Nat) :
    Nat → Nat → FlashBuffers F → List (Extended F) → Option (List (Extended F))
  | 0, _, _, _ => none
  | fuel + 1, qi, bufs, outSlab =>
    if qi < args.seq then
      let qiEnd := min (qi + args.br) args.seq
      let brUsed := qiEnd - qi
      match keyLoop exp gemm args mask q k v qBase kBase vBase qi brUsed keyFuel 0
          (resetRows args.dim brUsed bufs) with
      | none => none
      | some bufs =>
        queryLoop args mask q k v qBase kBase vBase keyFuel fuel qiEnd bufs
          (writeBack args qi brUsed bufs outSlab)
    else
      some outSlab

def flashForwardBhBlas (fuel : Nat) (q k v outSlab : List (Extended F)) (mask : Mask)
    (args : FlashTileArgs F) (qBase kBase vBase : Nat) : Option (List (Extended F)) :=
  queryLoop exp gemm args mask q k v qBase kBase vBase fuel fuel 0 (FlashBuffers.new args) outSlab

/-- The buffer that `flash_forward_masked` leaves in `out`. -/
def flashForwardMasked (fuel : Nat) (shape : AttentionShape) (q k v : List (Extended F))
    (mask : Mask) (out : List (Extended F)) :
    Option (Except AttentionError (List (Extended F))) :=
  match validate shape q k v out with
  | .error e => some (.error e)
  | .ok () =>
    match mask.validate shape.seq with
    | .error e => some (.error (.mask e))
    | .ok () =>
      if shape.seq = 0 then
        some (.ok out)
      else
        let (_, sH, sN) := shape.strides
        let args : FlashTileArgs F :=
          { scale := 1 / sqrt shape.dim, seq := shape.seq, dim := shape.dim, br := shape.br,
            bc := shape.bc, sN := sN }
        let slabs := (Chunks.chunks sH out).zipIdx.mapM fun (outSlab, bh) =>
          let b := bh / shape.heads
          let h := bh % shape.heads
          let base := b * (shape.heads * sH) + h * sH
          flashForwardBhBlas exp gemm fuel q k v outSlab mask args base base base
        slabs.map fun slabs => .ok slabs.flatten

def flashForward (fuel : Nat) (shape : AttentionShape) (q k v out : List (Extended F)) :
    Option (Except AttentionError (List (Extended F))) :=
  flashForwardMasked exp sqrt gemm fuel shape q k v .none out

end Tiles

/-! ## The reference -/

section Reference

variable [Zero F] [One F] [Add F] [Sub F] [Mul F] [Div F] [NatCast F] [LT F] [DecidableLT F]
  [DecidableEq F] (exp sqrt : F → F)

/-- The score of one query and one key, `-∞` where the mask hides the key. -/
def naiveScore (scale : F) (dim sN base : Nat) (mask : Mask) (q k : List (Extended F))
    (i j : Nat) : Extended F :=
  if mask.isMasked i j then
    .negInf
  else
    (range dim).foldl
      (fun s d => s + read q (base + i * sN + d) * read k (base + j * sN + d)) (.fin 0) * .fin scale

def naiveScores (scale : F) (seq dim sN base : Nat) (mask : Mask) (q k : List (Extended F)) :
    List (Extended F) :=
  (range seq).flatMap fun i =>
    (range seq).map fun j => naiveScore scale dim sN base mask q k i j

/-- The softmax of one score row, applied to the values. -/
def naiveRow (seq dim sN base : Nat) (v scoreRow : List (Extended F)) : List (Extended F) :=
  let m := scoreRow.foldl Extended.max .negInf
  let weights := scoreRow.map fun x => Extended.exp exp (x - m)
  let sum := weights.foldl (· + ·) (.fin 0)
  if lt (.fin 0) sum && sum.isFinite then
    let weights := weights.map (· / sum)
    (range dim).map fun d =>
      (range seq).foldl (fun o j => o + read weights j * read v (base + j * sN + d)) (.fin 0)
  else
    replicate dim .nan

def naiveHead (scale : F) (shape : AttentionShape) (mask : Mask) (q k v : List (Extended F))
    (base : Nat) (out : List (Extended F)) : List (Extended F) :=
  let (_, _, sN) := shape.strides
  let scores := naiveScores scale shape.seq shape.dim sN base mask q k
  (range shape.seq).foldl
    (fun out i =>
      writeAt (base + i * sN) (naiveRow exp shape.seq shape.dim sN base v (row shape.seq i scores))
        out) out

/-- The buffer that `naive_forward_masked` leaves in `out`. -/
def naiveForwardMasked (shape : AttentionShape) (q k v : List (Extended F)) (mask : Mask)
    (out : List (Extended F)) : Except AttentionError (List (Extended F)) :=
  match validate shape q k v out with
  | .error e => .error e
  | .ok () =>
    match mask.validate shape.seq with
    | .error e => .error (.mask e)
    | .ok () =>
      let scale := 1 / sqrt shape.dim
      let (sB, sH, _) := shape.strides
      .ok ((range shape.batch).foldl
        (fun out b => (range shape.heads).foldl
          (fun out h => naiveHead exp scale shape mask q k v (b * sB + h * sH) out) out) out)

def naiveForward (shape : AttentionShape) (q k v out : List (Extended F)) :
    Except AttentionError (List (Extended F)) :=
  naiveForwardMasked exp sqrt shape q k v .none out

end Reference

end Attention
end Rustorch
