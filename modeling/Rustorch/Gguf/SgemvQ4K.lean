import Rustorch.Gguf.KQuantValues
import Rustorch.Lib.Machine

/-!
# The matrix-vector product on `Q4_K` weights

`sgemv_q4k.rs`: `sgemv_q4_k` walks the super-blocks of each row and dequantizes them one at a time
into a buffer.  Both it and the dequantization of the whole matrix read the same weight of the same
super-block (`q4Weight`), and both sums add the same terms in the same order.  Addition and
multiplication obey no laws.
-/

namespace Rustorch
namespace Gguf

open List Outcome Rows
open Nat (cast mul_assoc succ_mul)

open Filling (slice Filled)
open LoopNest (put)

section Model

variable {F : Type} [Add F] [Sub F] [Mul F] [IntCast F] (half : UInt8 → UInt8 → F)

/-- `dequant_to_f32` of a tensor in one of the K-quants. -/
def dequantToF32 [Zero F] (q : KQuant) (shape : List Nat) (src : List UInt8) :
    Outcome DequantError (List F) :=
  q.dequant half src (replicate (shape.prod % u64Size) 0)

/-- The 256 products of one super-block. -/
def dotBlock (x : List F) (blk : Nat) (blockBuf : List F) (acc : F) : Option F := do
  let xSlice ← slice x (blk * qkK) ((blk + 1) * qkK)
  (range qkK).foldlM (fun acc i => do
    let a ← xSlice[i]?
    let b ← blockBuf[i]?
    some (acc + a * b)) acc

/-- The super-blocks of a row, with the buffer they are dequantized into. -/
def rowBlocks [Zero F] (x : List F) (wBytes : List UInt8) (rowOff blocksPerRow : Nat)
    (blockBuf : List F) : Outcome DequantError (F × List F) :=
  (range blocksPerRow).foldlM (fun (st : F × List F) blk => do
    let blkOff := rowOff + blk * q4KBytes
    let block ← .expect (slice wBytes blkOff (blkOff + q4KBytes))
    let blockBuf ← dequantQ4K half block st.2
    let acc ← .expect (dotBlock x blk blockBuf st.1)
    return (acc, blockBuf)) (0, blockBuf)

/-- The rows; `y` holds those that are done, also when one fails. -/
def sgemvRows [Zero F] (x : List F) (wBytes : List UInt8) (bytesPerRow blocksPerRow : Nat) :
    List Nat → List F → List F → Outcome DequantError Unit × List F
  | [], _, y => (.ok (), y)
  | nIdx :: rows, blockBuf, y =>
    match rowBlocks half x wBytes (nIdx * bytesPerRow) blocksPerRow blockBuf with
    | .ok (acc, blockBuf) =>
      match put y nIdx acc with
      | some y => sgemvRows x wBytes bytesPerRow blocksPerRow rows blockBuf y
      | none => (.panic, y)
    | .err e => (.err e, y)
    | .panic => (.panic, y)

/-- The bytes that the size check asks for, a `usize`. -/
def neededBytes (k n : Nat) : Nat :=
  n * (k / qkK * q4KBytes) % u64Size

/-- The result of the call and what it leaves in `y`. -/
def sgemvQ4K [Zero F] (x : List F) (wBytes : List UInt8) (y : List F) (k n : Nat) :
    Outcome DequantError Unit × List F :=
  if k % qkK ≠ 0 then
    (.err (.outputSize (k / qkK * qkK) k), y)
  else
    let blocksPerRow := k / qkK
    let bytesPerRow := blocksPerRow * q4KBytes
    if wBytes.length < neededBytes k n then
      (.err (.bufferTooSmall (neededBytes k n) wBytes.length), y)
    else if x.length ≠ k then
      (.err (.outputSize k x.length), y)
    else if y.length ≠ n then
      (.err (.outputSize n y.length), y)
    else
      sgemvRows half x wBytes bytesPerRow blocksPerRow (range n) (replicate qkK 0) y

end Model

/-! ## The weights of a super-block -/

section Weights

variable {F : Type} [Sub F] [Mul F] [IntCast F] (half : UInt8 → UInt8 → F)

/-- The weight `t` of super-block `b`. -/
def q4Weight (src : List UInt8) (b t : Nat) : F :=
  KQuant.value (half (blockByte src (b * q4KBytes) 0) (blockByte src (b * q4KBytes) 1))
    (half (blockByte src (b * q4KBytes) 2) (blockByte src (b * q4KBytes) 3)) .q4_K
    (fun k => blockByte src (b * q4KBytes) (4 + k)) t

def q4Weights (src : List UInt8) (b : Nat) : List F :=
  (range qkK).map (q4Weight half src b)

variable {half} {src : List UInt8} {b : Nat}

theorem length_q4Weights : (q4Weights half src b).length = qkK := by
  unfold q4Weights
  rw [length_map, length_range]

theorem getD_q4Weights {i : Nat} {a : F} (hi : i < qkK) :
    (q4Weights half src b).getD i a = q4Weight half src b i := by
  unfold q4Weights
  rw [getD_eq_getElem?_getD, getElem?_map, getElem?_range hi]
  rfl

theorem dequantQ4KBlock_eq {out : List F} (hsrc : b * q4KBytes + q4KBytes ≤ src.length)
    (hout : out.length = qkK) :
    dequantQ4KBlock half src (b * q4KBytes) out = some (q4Weights half src b) := by
  obtain ⟨out', hrun, hfilled⟩ := dequantQ4KBlock_filled half hsrc hout
  have hfull := @Filled.mono _ _ _ _ (fun _ => True) _ hfilled (fun i hi _ => hi)
  rw [hrun, hfull.eq_map]
  rfl

/-- The whole matrix, super-block by super-block. -/
theorem dequantQ4K_eq {nb : Nat} {dst : List F} (hdst : dst.length = nb * qkK)
    (hsrc : nb * q4KBytes ≤ src.length) :
    dequantQ4K half src dst = .ok ((range nb).flatMap (q4Weights half src)) := by
  refine dequantBlocks_ok hdst hsrc (fun b _ => length_q4Weights) ?_
  intro b hb out hout
  have hfit : (b + 1) * q4KBytes ≤ nb * q4KBytes := Nat.mul_le_mul_right _ hb
  rw [succ_mul] at hfit
  exact dequantQ4KBlock_eq (hfit.trans hsrc) hout

theorem q4Weights_slice {block : List UInt8}
    (hslice : slice src (b * q4KBytes) (b * q4KBytes + q4KBytes) = some block) :
    block.length = q4KBytes ∧ q4Weights half block 0 = q4Weights half src b := by
  unfold slice at hslice
  split at hslice
  · next hle =>
      cases hslice
      have hlen : ((src.drop (b * q4KBytes)).take
          (b * q4KBytes + q4KBytes - b * q4KBytes)).length = q4KBytes := by
        rw [length_take, length_drop]
        omega
      refine ⟨hlen, ?_⟩
      have hbyte : ∀ k < q4KBytes, blockByte ((src.drop (b * q4KBytes)).take
          (b * q4KBytes + q4KBytes - b * q4KBytes)) (0 * q4KBytes) k =
            blockByte src (b * q4KBytes) k := by
        intro k hk
        unfold blockByte
        rw [getD_eq_getElem?_getD, getElem?_take_of_lt (by omega), getElem?_drop,
          getD_eq_getElem?_getD, Nat.zero_mul, Nat.zero_add]
      apply map_congr_left
      intro t ht
      unfold q4Weight
      rw [hbyte 0 (by decide), hbyte 1 (by decide), hbyte 2 (by decide), hbyte 3 (by decide)]
      apply value_congr _ _ _ (mem_range.1 ht)
      intro k hk
      change k < 12 + 128 at hk
      apply hbyte
      unfold q4KBytes
      omega
  · cases hslice

end Weights

/-! ## The sums -/

section Sums

variable {F : Type} [Zero F] [Add F] [Sub F] [Mul F] [IntCast F] (half : UInt8 → UInt8 → F)

/-- `acc += x[j] * w[i * k + j]` for increasing `j`, from zero. -/
def dotRow (x w : List F) (k i : Nat) : F :=
  (range k).foldl (fun acc j => acc + x.getD j 0 * w.getD (i * k + j) 0) 0

/-- The matrix-vector product of a dequantized matrix. -/
def matVec (x w : List F) (k n : Nat) : List F :=
  (range n).map (dotRow x w k)

/-- The first `m` terms of the row that starts at super-block `base`. -/
def partialDot (x : List F) (src : List UInt8) (base m : Nat) : F :=
  (range m).foldl
    (fun acc j => acc + x.getD j 0 * q4Weight half src (base + j / qkK) (j % qkK)) 0

variable {half} {x y : List F} {src : List UInt8} {base blk k n : Nat}

omit [IntCast F] [Sub F] in
theorem dotBlock_eq {buf : List F} (acc : F) (hx : (blk + 1) * qkK ≤ x.length)
    (hbuf : buf.length = qkK) : dotBlock x blk buf acc =
      some ((range qkK).foldl
        (fun acc i => acc + x.getD (blk * qkK + i) 0 * buf.getD i 0) acc) := by
  have hwidth : (blk + 1) * qkK - blk * qkK = qkK := by
    rw [succ_mul, Nat.add_sub_cancel_left]
  have hslice : slice x (blk * qkK) ((blk + 1) * qkK) = some ((x.drop (blk * qkK)).take qkK) := by
    unfold slice
    rw [if_pos ⟨Nat.mul_le_mul_right _ (Nat.le_succ blk), hx⟩, hwidth]
  have hfold : ∀ (m : Nat), m ≤ qkK → ∀ acc : F, (range m).foldlM (fun acc i => do
      let a ← ((x.drop (blk * qkK)).take qkK)[i]?
      let b ← buf[i]?
      some (acc + a * b)) acc =
        some ((range m).foldl
          (fun acc i => acc + x.getD (blk * qkK + i) 0 * buf.getD i 0) acc) := by
    intro m
    induction m with
    | zero => exact fun _ _ => rfl
    | succ m ih =>
      intro hm acc
      have hcell : blk * qkK + m < x.length := by
        omega
      rw [range_succ, foldlM_append, ih (by omega) acc, foldl_append]
      simp only [Option.bind_eq_bind, Option.bind_some, foldlM_cons, foldlM_nil,
        foldl_cons, foldl_nil]
      rw [getElem?_take_of_lt hm, getElem?_drop, getElem?_eq_getElem hcell,
        getElem?_eq_getElem (by rw [hbuf]; exact hm), getD_eq_getElem _ _ hcell,
        getD_eq_getElem buf 0 (by rw [hbuf]; exact hm)]
      rfl
  unfold dotBlock
  rw [hslice]
  exact hfold qkK (le_refl _) acc

theorem partialDot_block : partialDot half x src base ((blk + 1) * qkK) =
    (range qkK).foldl (fun acc i =>
      acc + x.getD (blk * qkK + i) 0 * (q4Weights half src (base + blk)).getD i 0)
      (partialDot half x src base (blk * qkK)) := by
  have hsplit : range ((blk + 1) * qkK) = range (blk * qkK) ++ (range qkK).map (blk * qkK + ·) := by
    rw [← range_add, succ_mul]
  unfold partialDot
  rw [hsplit, foldl_append, foldl_map]
  apply foldl_ext
  intro acc i hi
  have hi := mem_range.1 hi
  rw [cell_div hi, cell_mod hi, getD_q4Weights hi]

/-- The walk over a row, from whatever the buffer held. -/
theorem rowBlocks_eq {m i : Nat} {buf : List F} (hx : m * qkK ≤ x.length)
    (hsrc : (i + 1) * m * q4KBytes ≤ src.length) (hbuf : buf.length = qkK) :
    ∃ buf', rowBlocks half x src (i * (m * q4KBytes)) m buf =
      .ok (partialDot half x src (i * m) (m * qkK), buf') ∧ buf'.length = qkK := by
  let body : F × List F → Nat → Outcome DequantError (F × List F) := fun st blk => do
    let blkOff := i * (m * q4KBytes) + blk * q4KBytes
    let block ← .expect (slice src blkOff (blkOff + q4KBytes))
    let blockBuf ← dequantQ4K half block st.2
    let acc ← .expect (dotBlock x blk blockBuf st.1)
    return (acc, blockBuf)
  have hstep : ∀ blk < m, ∀ st : F × List F,
      st.1 = partialDot half x src (i * m) (blk * qkK) ∧ st.2.length = qkK →
        ∃ st', body st blk = .ok st' ∧
          st'.1 = partialDot half x src (i * m) ((blk + 1) * qkK) ∧ st'.2.length = qkK := by
    -- one super-block: its weights, and 256 more terms
    intro blk hblk st hst
    have hoff : i * (m * q4KBytes) + blk * q4KBytes = (i * m + blk) * q4KBytes := by
      rw [Nat.add_mul, mul_assoc]
    have hlast : (i * m + blk) * q4KBytes + q4KBytes ≤ src.length := by
      have hfit : (i * m + blk + 1) * q4KBytes ≤ (i + 1) * m * q4KBytes := by
        apply Nat.mul_le_mul_right
        rw [succ_mul]
        omega
      rw [← succ_mul]
      exact hfit.trans hsrc
    have hxblk : (blk + 1) * qkK ≤ x.length := (Nat.mul_le_mul_right qkK hblk).trans hx
    obtain ⟨block, hblock, _⟩ :=
      Filling.slice_length (Nat.le_add_right ((i * m + blk) * q4KBytes) q4KBytes) hlast
    obtain ⟨hlen, hweights⟩ := @q4Weights_slice F _ _ _ half src _ _ hblock
    have hdequant : dequantQ4K half block st.2 = .ok (q4Weights half src (i * m + blk)) := by
      rw [dequantQ4K_eq (show st.2.length = 1 * qkK by rw [hst.2, Nat.one_mul])
        (by rw [hlen, Nat.one_mul]), ← hweights]
      simp
    refine ⟨(partialDot half x src (i * m) ((blk + 1) * qkK), q4Weights half src (i * m + blk)),
      ?_, rfl, length_q4Weights⟩
    simp only [body, hoff]
    rw [hblock, expect_some, ok_bind, hdequant, ok_bind,
      dotBlock_eq st.1 hxblk length_q4Weights, hst.1, partialDot_block]
    rfl
  have hstart : ((0 : F), buf).1 = partialDot half x src (i * m) (0 * qkK) ∧
      ((0 : F), buf).2.length = qkK := by
    exact ⟨rfl, hbuf⟩
  obtain ⟨⟨acc, buf'⟩, hrun, hacc, hbuf'⟩ := foldlM_range
    (fun blk (st : F × List F) =>
      st.1 = partialDot half x src (i * m) (blk * qkK) ∧ st.2.length = qkK)
    hstart hstep
  refine ⟨buf', ?_, hbuf'⟩
  rw [← hacc]
  exact hrun

theorem sgemvRows_eq {m : Nat} (hx : m * qkK ≤ x.length) (hsrc : n * (m * q4KBytes) ≤ src.length)
    (rows : List Nat) : (∀ i ∈ rows, i < n) → ∀ (buf y : List F), buf.length = qkK → y.length = n →
      sgemvRows half x src (m * q4KBytes) m rows buf y =
        (.ok (), rows.foldl (fun y i => y.set i (partialDot half x src (i * m) (m * qkK))) y) := by
  induction rows with
  | nil => exact fun _ _ _ _ _ => rfl
  | cons i rows ih =>
    intro hrows buf y hbuf hy
    obtain ⟨hi, hrest⟩ := forall_mem_cons.1 hrows
    have hrow : (i + 1) * m * q4KBytes ≤ src.length := by
      rw [mul_assoc]
      exact (Nat.mul_le_mul_right _ hi).trans hsrc
    obtain ⟨buf', hrun, hbuf'⟩ := @rowBlocks_eq F _ _ _ _ _ half x src m i buf hx hrow hbuf
    have hput : put y i (partialDot half x src (i * m) (m * qkK)) =
        some (y.set i (partialDot half x src (i * m) (m * qkK))) :=
      if_pos (by rwa [hy])
    unfold sgemvRows
    rw [hrun]
    simp only [hput]
    exact ih hrest buf' _ hbuf' (by rw [length_set, hy])

omit [Zero F] [Add F] [Sub F] [Mul F] [IntCast F] in
theorem foldl_set_range (f : Nat → F) (m : Nat) : ∀ y : List F, m ≤ y.length →
    (range m).foldl (fun y i => y.set i (f i)) y = (range m).map f ++ y.drop m := by
  induction m with
  | zero => exact fun _ _ => rfl
  | succ m ih =>
    intro y hm
    have hlen : ((range m).map f).length = m := by simp
    rw [range_succ, foldl_append, ih y (by omega), foldl_cons, foldl_nil,
      set_append_right _ _ (by rw [hlen]), hlen, Nat.sub_self,
      drop_eq_getElem_cons (by omega), set_cons_zero, map_append,
      append_assoc]
    rfl

theorem dotRow_eq {m i : Nat} (hi : i < n) :
    dotRow x ((range (n * m)).flatMap (q4Weights half src)) (m * qkK) i =
      partialDot half x src (i * m) (m * qkK) := by
  apply foldl_ext
  intro acc j hj
  have hj := mem_range.1 hj
  have hblk : j / qkK < m := Nat.div_lt_of_lt_mul (by rwa [Nat.mul_comm])
  have hlt : i * m + j / qkK < n * m := cell_lt hi hblk
  have hmod : j % qkK < qkK := Nat.mod_lt _ (by decide)
  have hplace : i * (m * qkK) + j = (i * m + j / qkK) * qkK + j % qkK := by
    rw [Nat.add_mul, mul_assoc, Nat.add_assoc, Nat.div_add_mod']
  have hrow := row_flatMap_range
    (fun b (_ : b < n * m) => @length_q4Weights F _ _ _ half src b) (i * m + j / qkK) hlt
  have hcell := getElem?_row qkK (i * m + j / qkK)
    ((range (n * m)).flatMap (q4Weights half src)) (j % qkK)
  rw [hrow, if_pos hmod, ← hplace] at hcell
  have hweight : ((range (n * m)).flatMap (q4Weights half src)).getD
      (i * (m * qkK) + j) 0 = q4Weight half src (i * m + j / qkK) (j % qkK) := by
    rw [getD_eq_getElem?_getD, ← hcell, ← getD_eq_getElem?_getD, getD_q4Weights hmod]
  rw [hweight]

/-- The direct product is the product of the dequantized matrix, to the order of its operations; a
size check that fails leaves `y` as it was.  A slice holds fewer than `2^63` bytes. -/
theorem sgemvQ4K_eq (half : UInt8 → UInt8 → F) (x : List F) (wBytes : List UInt8) (y : List F)
    (k n : Nat) (hslice : wBytes.length < 2 ^ 63) :
    (k % qkK = 0 → n * (k / qkK) * q4KBytes ≤ wBytes.length → x.length = k → y.length = n →
      ∃ w, dequantToF32 half .q4_K [k, n] wBytes = .ok w ∧
        sgemvQ4K half x wBytes y k n = (.ok (), matVec x w k n)) ∧
    (k % qkK ≠ 0 ∨ wBytes.length < neededBytes k n ∨ x.length ≠ k ∨ y.length ≠ n →
      ∃ e, sgemvQ4K half x wBytes y k n = (.err e, y)) := by
  constructor
  · intro hk hw hx hy
    obtain ⟨m, rfl⟩ := Nat.dvd_of_mod_eq_zero hk
    rw [Nat.mul_div_cancel_left _ (by decide)] at hw
    rw [Nat.mul_comm] at hx ⊢
    have hw' : n * (m * q4KBytes) ≤ wBytes.length := by rwa [← mul_assoc]
    -- The bytes are there, so no product of sizes wraps.
    have hsize : ∀ c, c ≤ 256 → n * (m * c) < u64Size := by
      intro c hc
      have hcount : n * m * 144 < 2 ^ 63 := Nat.lt_of_le_of_lt hw hslice
      have hle : n * m * c ≤ n * m * 256 := Nat.mul_le_mul_left _ hc
      unfold u64Size
      rw [← mul_assoc]
      omega
    refine ⟨(range (n * m)).flatMap (q4Weights half wBytes), ?_, ?_⟩
    · have hprod : [m * qkK, n].prod % u64Size = n * m * qkK := by
        have hlt := hsize qkK (le_refl _)
        rw [prod_cons, prod_singleton, Nat.mul_comm, Nat.mod_eq_of_lt hlt, mul_assoc]
      unfold dequantToF32
      rw [hprod]
      exact dequantQ4K_eq length_replicate hw
    · have hblocks : m * qkK / qkK = m := Nat.mul_div_cancel _ (by decide)
      have hneeded : neededBytes (m * qkK) n = n * (m * q4KBytes) := by
        unfold neededBytes
        rw [hblocks, Nat.mod_eq_of_lt (hsize q4KBytes (by decide))]
      unfold sgemvQ4K
      -- The four checks of the source, in its order.
      rw [if_neg (not_not.2 (Nat.mul_mod_left _ _)), hneeded]
      simp only [hblocks]
      rw [if_neg (Nat.not_lt.2 hw'), if_neg (not_not.2 hx), if_neg (not_not.2 hy),
        sgemvRows_eq (Nat.le_of_eq hx.symm) hw' (range n) (fun i hi => mem_range.1 hi) _ _
          length_replicate hy, foldl_set_range _ n y (Nat.le_of_eq hy.symm),
        drop_of_length_le (Nat.le_of_eq hy), append_nil]
      refine congrArg (Prod.mk _) (map_congr_left ?_)
      intro i hi
      exact (dotRow_eq (mem_range.1 hi)).symm
  · intro hfail
    unfold sgemvQ4K
    by_cases hk : k % qkK ≠ 0
    · exact ⟨_, if_pos hk⟩
    · rw [if_neg hk]
      by_cases hw : wBytes.length < neededBytes k n
      · exact ⟨_, if_pos hw⟩
      · rw [if_neg hw]
        by_cases hx : x.length ≠ k
        · exact ⟨_, if_pos hx⟩
        · rw [if_neg hx]
          by_cases hy : y.length ≠ n
          · exact ⟨_, if_pos hy⟩
          · rcases hfail with h | h | h | h
            · exact absurd h hk
            · exact absurd h hw
            · exact absurd h hx
            · exact absurd h hy

/-- The value of a finite `f16`. -/
def halfValue (lo hi : UInt8) : ℚ :=
  let bits := 256 * hi.toNat + lo.toNat
  let magnitude : ℚ :=
    if bits / 1024 % 32 = 0 then (bits % 1024 : Nat) / 2 ^ 24
    else (1024 + (bits % 1024 : Nat)) * 2 ^ (bits / 1024 % 32) / 2 ^ 25
  if bits / 32768 = 1 then -magnitude else magnitude

/-- Two different super-blocks. -/
def twoBlocks : List UInt8 :=
  (List.range 288).map fun i => UInt8.ofNat (5 * i)

theorem sgemvQ4K_eq_twoBlocks :
    ∃ w, dequantToF32 halfValue .q4_K [256, 2] twoBlocks = .ok w ∧
      sgemvQ4K halfValue ((List.range 256).map cast) twoBlocks [5, 5] 256 2 =
        (.ok (), matVec ((List.range 256).map cast) w 256 2) :=
  have hbytes : twoBlocks.length = 288 := by simp [twoBlocks]
  (sgemvQ4K_eq halfValue ((List.range 256).map cast) twoBlocks [5, 5] 256 2
    (by rw [hbytes]; decide)).1 (by decide) (by rw [hbytes]; decide) (by simp) rfl

end Sums

end Gguf
end Rustorch
