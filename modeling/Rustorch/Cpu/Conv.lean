import Rustorch.Cpu.SumDim

/-!
# Two-dimensional convolution

`conv2d_forward` and its two gradients are loop nests over images, channels, and the rows and
columns of the output, the kernel and the input.  Each translates between output and input
positions with tests of its own: the forward loop in `usize`, the gradients in `isize`.
-/

namespace Rustorch
namespace Cpu

open Rustorch.Core List Outcome
open LoopNest (indices)

/-! ## Positions along one axis -/

/-- The input position of a kernel cell at an output position; `none` is in the padding. -/
def inputPos (size pad out k : Nat) : Option Nat :=
  let p := (out + k) % u64Size
  if p < pad ∨ (size + pad) % u64Size ≤ p then
    none
  else
    some (p - pad)

/-- The output position at which a kernel cell lies on an input position. -/
def outputPos (outSize pad inp k : Nat) : Option Nat :=
  let s := wrapI64 (wrapI64 (asI64 inp + asI64 pad) - asI64 k)
  if s < 0 ∨ outSize ≤ s.toNat then
    none
  else
    some s.toNat

/-- The input position in signed arithmetic. -/
def inputPosSigned (size pad out k : Nat) : Option Nat :=
  let s := wrapI64 (wrapI64 (asI64 out + asI64 k) - asI64 pad)
  if s < 0 ∨ asI64 size ≤ s then
    none
  else
    some s.toNat

/-- `(size + 2 * pad).saturating_sub(k) + 1`. -/
def convOut (size pad k : Nat) : Nat :=
  ((size + 2 * pad) % u64Size - k + 1) % u64Size

/-! ## The kernels -/

section Model

variable {F : Type}

/-- `((a * B + b) * C + c) * D + d`. -/
def index4 (a b c d B C D : Nat) : Nat :=
  (((a * B + b) * C + c) * D + d) % u64Size

/-- `shape[i]`. -/
def axisSize (shape : Shape) (i : Nat) : Outcome BackendError Nat :=
  expect shape[i]?

/-- `as_slice::<f32>().ok_or_else(..)`. -/
def sliceOr (t : Tensor F) (e : BackendError) : Outcome BackendError (List F) :=
  match t.asSlice .f32 with
  | .ok data => .ok data
  | .err _ => .err e
  | .panic => .panic

/-- `as_slice::<f32>().expect(..)`. -/
def sliceExpect (t : Tensor F) : Outcome BackendError (List F) :=
  unwrap (t.asSlice .f32)

/-- `bias.and_then(|b| b.as_slice::<f32>())`. -/
def biasSlice (bias : Option (Tensor F)) : Outcome BackendError (Option (List F)) :=
  match bias with
  | none => .ok none
  | some b =>
    match b.asSlice .f32 with
    | .ok data => .ok (some data)
    | .err _ => .ok none
    | .panic => .panic

variable [CommRing F]

/-- `acc += a * b` at two positions, and `continue` if one is missing. -/
def accumulate (p q : Option Nat) (a b : Nat → Nat → Option F) (acc : F) : Option F :=
  match p, q with
  | some r, some c => do
    let x ← a r c
    let y ← b r c
    some (acc + x * y)
  | _, _ => some acc

/-- The loop over input channels and kernel cells at one output position. -/
def convWindow (inData wData : List F) (cIn h w kh kw padH padW ni co hi wi : Nat) : Option F :=
  LoopNest.run [cIn, kh, kw] (fun K acc =>
    match K with
    | [ci, kr, kc] =>
      accumulate (inputPos h padH hi kr) (inputPos w padW wi kc)
        (fun hInReal wInReal => inData[index4 ni ci hInReal wInReal cIn h w]?)
        (fun _ _ => wData[index4 co ci kr kc cIn kh kw]?) acc
    | _ => some acc) 0

/-- The loop over output channels and kernel cells at one input position. -/
def gradInputWindow (g wData : List F) (cIn cOut kh kw hOut wOut padH padW ni ci hi wi : Nat) :
    Option F :=
  LoopNest.run [cOut, kh, kw] (fun K acc =>
    match K with
    | [co, kr, kc] =>
      accumulate (outputPos hOut padH hi kr) (outputPos wOut padW wi kc)
        (fun ho wo => g[index4 ni co ho wo cOut hOut wOut]?)
        (fun _ _ => wData[index4 co ci kr kc cIn kh kw]?) acc
    | _ => some acc) 0

/-- The loop over images and output positions at one kernel cell. -/
def gradWeightWindow (inData g : List F) (n cIn h w cOut hOut wOut padH padW co ci kr kc : Nat) :
    Option F :=
  LoopNest.run [n, hOut, wOut] (fun O acc =>
    match O with
    | [ni, ho, wo] =>
      accumulate (inputPosSigned h padH ho kr) (inputPosSigned w padW wo kc)
        (fun hIn wIn => inData[index4 ni ci hIn wIn cIn h w]?)
        (fun _ _ => g[index4 ni co ho wo cOut hOut wOut]?) acc
    | _ => some acc) 0

def conv2dForward (input weight : Tensor F) (bias : Option (Tensor F)) (padH padW : Nat) :
    Outcome BackendError (Tensor F) :=
  if input.layout.dtype ≠ .f32 ∨ weight.layout.dtype ≠ .f32 then
    .err (.dtypeMismatch "conv2d" input.layout.dtype weight.layout.dtype)
  else if input.shape.length ≠ 4 ∨ weight.shape.length ≠ 4 then
    .err (.shapeMismatch "conv2d" input.shape weight.shape)
  else do
    let n ← axisSize input.shape 0
    let cIn ← axisSize input.shape 1
    let h ← axisSize input.shape 2
    let w ← axisSize input.shape 3
    let cOut ← axisSize weight.shape 0
    let wCin ← axisSize weight.shape 1
    let kh ← axisSize weight.shape 2
    let kw ← axisSize weight.shape 3
    if cIn ≠ wCin then
      .err (.shapeMismatch "conv2d" input.shape weight.shape)
    else do
      let hOut := convOut h padH kh
      let wOut := convOut w padW kw
      let inData ← sliceOr input (.dtypeMismatch "conv2d" input.layout.dtype .f32)
      let wData ← sliceOr weight (.dtypeMismatch "conv2d" weight.layout.dtype .f32)
      let biasData ← biasSlice bias
      let nOut := numel [n, cOut, hOut, wOut]
      let out ← filled .f32 (0 : F) nOut
      let out ← expect (LoopNest.run [n, cOut, hOut, wOut] (fun O out =>
        match O with
        | [ni, co, hi, wi] => do
          let b ← match biasData with
            | some b => b[co]?
            | none => some 0
          let acc ← convWindow inData wData cIn h w kh kw padH padW ni co hi wi
          LoopNest.put out (index4 ni co hi wi cOut hOut wOut) (acc + b)
        | _ => some out) out)
      fromVecOrOom .f32 [n, cOut, hOut, wOut] out nOut

def conv2dGradInput (gradOutput weight : Tensor F) (inShape : Shape) (padH padW : Nat) :
    Outcome BackendError (Tensor F) := do
  let n ← axisSize inShape 0
  let cIn ← axisSize inShape 1
  let h ← axisSize inShape 2
  let w ← axisSize inShape 3
  let cOut ← axisSize weight.shape 0
  let kh ← axisSize weight.shape 2
  let kw ← axisSize weight.shape 3
  let hOut ← axisSize gradOutput.shape 2
  let wOut ← axisSize gradOutput.shape 3
  let g ← sliceOr gradOutput (.dtypeMismatch "conv2d_grad_input" gradOutput.layout.dtype .f32)
  let wData ← sliceExpect weight
  let nIn := numel [n, cIn, h, w]
  let din ← filled .f32 (0 : F) nIn
  let din ← expect (LoopNest.run [n, cIn, h, w] (fun I din =>
    match I with
    | [ni, ci, hi, wi] => do
      let acc ← gradInputWindow g wData cIn cOut kh kw hOut wOut padH padW ni ci hi wi
      LoopNest.put din (index4 ni ci hi wi cIn h w) acc
    | _ => some din) din)
  fromVecOrOom .f32 [n, cIn, h, w] din nIn

def conv2dGradWeight (input gradOutput : Tensor F) (weightShape : Shape) (padH padW : Nat) :
    Outcome BackendError (Tensor F) := do
  let cOut ← axisSize weightShape 0
  let cIn ← axisSize weightShape 1
  let kh ← axisSize weightShape 2
  let kw ← axisSize weightShape 3
  let n ← axisSize input.shape 0
  let h ← axisSize input.shape 2
  let w ← axisSize input.shape 3
  let hOut ← axisSize gradOutput.shape 2
  let wOut ← axisSize gradOutput.shape 3
  let inData ← sliceExpect input
  let g ← sliceExpect gradOutput
  let nW := numel [cOut, cIn, kh, kw]
  let dw ← filled .f32 (0 : F) nW
  let dw ← expect (LoopNest.run [cOut, cIn, kh, kw] (fun K dw =>
    match K with
    | [co, ci, kr, kc] => do
      let acc ← gradWeightWindow inData g n cIn h w cOut hOut wOut padH padW co ci kr kc
      LoopNest.put dw (index4 co ci kr kc cIn kh kw) acc
    | _ => some dw) dw)
  fromVecOrOom .f32 [cOut, cIn, kh, kw] dw nW

end Model

/-! ## Which positions meet -/

theorem inputPos_iff {size pad out k i : Nat} (hsize : size < 2 ^ 61) (hout : out < 2 ^ 61)
    (hk : k < 2 ^ 61) :
    inputPos size pad out k = some i ↔ i < size ∧ pad < 2 ^ 63 ∧ out + k = i + pad := by
  have hp : (out + k) % u64Size = out + k := Nat.mod_eq_of_lt (by unfold u64Size; omega)
  rw [inputPos, hp]
  unfold u64Size
  split_ifs with h
  · constructor
    · intro hn
      cases hn
    · rintro ⟨h1, h2, h3⟩
      omega
  · rw [Option.some.injEq]
    omega

theorem wrapped_difference {a b : Int} :
    -(2 ^ 63) ≤ wrapI64 (wrapI64 a - b) ∧ wrapI64 (wrapI64 a - b) < 2 ^ 63 ∧
      wrapI64 (wrapI64 a - b) % 2 ^ 64 = (a - b) % 2 ^ 64 :=
  ⟨le_wrapI64 _, wrapI64_lt _, (wrapI64_modEq _).trans ((wrapI64_modEq a).sub_right b)⟩

theorem outputPos_iff {outSize pad inp k o : Nat} (hsize : outSize < 2 ^ 61) (hinp : inp < 2 ^ 61)
    (hk : k < 2 ^ 61) :
    outputPos outSize pad inp k = some o ↔ o < outSize ∧ (o : Int) + k = inp + asI64 pad := by
  have hlo : -(2 ^ 63) ≤ asI64 pad := le_wrapI64 pad
  have hhi : asI64 pad < 2 ^ 63 := wrapI64_lt pad
  rw [outputPos, asI64_eq_self (by omega : inp < 2 ^ 63), asI64_eq_self (by omega : k < 2 ^ 63)]
  obtain ⟨hslo, hshi, hsmod⟩ := @wrapped_difference (inp + asI64 pad) k
  split_ifs with h
  · constructor
    · intro hn
      cases hn
    · rintro ⟨ho, heq⟩
      omega
  · rw [Option.some.injEq]
    omega

theorem inputPosSigned_iff {size pad out k i : Nat} (hsize : size < 2 ^ 61) (hout : out < 2 ^ 61)
    (hk : k < 2 ^ 61) :
    inputPosSigned size pad out k = some i ↔ i < size ∧ (out : Int) + k = i + asI64 pad := by
  have hlo : -(2 ^ 63) ≤ asI64 pad := le_wrapI64 pad
  have hhi : asI64 pad < 2 ^ 63 := wrapI64_lt pad
  rw [inputPosSigned, asI64_eq_self (by omega : out < 2 ^ 63),
    asI64_eq_self (by omega : k < 2 ^ 63), asI64_eq_self (by omega : size < 2 ^ 63)]
  obtain ⟨hslo, hshi, hsmod⟩ := @wrapped_difference (out + k) (asI64 pad)
  split_ifs with h
  · constructor
    · intro hn
      cases hn
    · rintro ⟨hi, heq⟩
      omega
  · rw [Option.some.injEq]
    omega

/-! ## The nests -/

section Nests

variable {F : Type} [CommRing F]

/-- The value at two positions, or zero if one is missing. -/
def meet (p q : Option Nat) (f : Nat → Nat → F) : F :=
  p.elim 0 fun r => q.elim 0 (f r)

theorem accumulate_eq {p q : Option Nat} {a b : Nat → Nat → Option F} {f g : Nat → Nat → F}
    (acc : F) (ha : ∀ r c, p = some r → q = some c → a r c = some (f r c))
    (hb : ∀ r c, p = some r → q = some c → b r c = some (g r c)) :
    accumulate p q a b acc = some (acc + meet p q fun r c => f r c * g r c) := by
  cases p with
  | none => simp [accumulate, meet]
  | some r =>
    cases q with
    | none => simp [accumulate, meet]
    | some c =>
      simp only [accumulate, ha r c rfl rfl, hb r c rfl rfl]
      rfl

theorem linearOf_four (A B C D a b c d : Nat) :
    linearOf [A, B, C, D] [a, b, c, d] = ((a * B + b) * C + c) * D + d := by
  simp only [linearOf, reverse_cons, reverse_nil, nil_append, cons_append, MixedRadix.value]
  ring

theorem inBounds_four {A B C D a b c d : Nat} :
    a < A → b < B → c < C → d < D → InBounds [A, B, C, D] [a, b, c, d] := by
  intro ha hb hc hd
  exact .cons ha (.cons hb (.cons hc (.cons hd .nil)))

/-- The axes of a nonempty tensor. -/
theorem size_lt {S : Shape} (h0 : ∀ d ∈ S, 0 < d)
    (hbytes : S.prod * Dtype.byteSize .f32 < 2 ^ 63) : ∀ d ∈ S, d < 2 ^ 61 := by
  intro d hd
  have hle : d ≤ S.prod := Nat.le_of_dvd (prod_pos h0) (dvd_prod hd)
  have hfour : Dtype.byteSize .f32 = 4 := rfl
  rw [hfour] at hbytes
  omega

theorem index4_eq {A B C D a b c d : Nat} (h : InBounds [A, B, C, D] [a, b, c, d])
    (hfit : [A, B, C, D].prod < u64Size) :
    index4 a b c d B C D = linearOf [A, B, C, D] [a, b, c, d] := by
  rw [index4, ← linearOf_four A]
  exact Nat.mod_eq_of_lt (lt_trans (linearOf_lt h) hfit)

omit [CommRing F] in
theorem read_index4 {A B C D a b c d : Nat} {f : Nat → F} (ha : a < A) (hb : b < B) (hc : c < C)
    (hd : d < D) (hfit : [A, B, C, D].prod < u64Size) :
    ((range [A, B, C, D].prod).map f)[index4 a b c d B C D]? =
      some (f (linearOf [A, B, C, D] [a, b, c, d])) := by
  have hI := inBounds_four ha hb hc hd
  rw [index4_eq hI hfit, getElem?_map, getElem?_range (linearOf_lt hI)]
  rfl

/-- A nest that writes the value of every multi-index makes a tensor of the values. -/
theorem nest_fresh {T : Dtype} {S : Shape} {body : List Nat → List F → Option (List F)}
    {v : List Nat → F} {n : Nat} (hbytes : S.prod * T.byteSize < 2 ^ 63)
    (hbody : ∀ I, InBounds S I → ∀ out, body I out = LoopNest.put out (linearOf S I) (v I)) :
    ∃ y, (do
        let out ← filled T 0 (numel S)
        let out ← expect (LoopNest.run S body out)
        fromVecOrOom T S out n) = .ok y ∧ Fresh y T S (fun l => v (coordsOf S l)) := by
  obtain ⟨y, hy, hfresh⟩ := @fromVecOrOom_fresh F T S (fun l => v (coordsOf S l)) n hbytes
  refine ⟨y, ?_, hfresh⟩
  have hrun : LoopNest.run S body (replicate S.prod 0) = some ((indices S).map v) :=
    LoopNest.run_write length_replicate hbody
  rw [numel_of_bytes hbytes, filled_ok hbytes, ok_bind, hrun, expect_some, ok_bind, map_indices, hy]

theorem sum_three (A B C : Nat) (t : List Nat → F) :
    ((indices [A, B, C]).map t).sum =
      ∑ a ∈ Finset.range A, ∑ b ∈ Finset.range B, ∑ c ∈ Finset.range C, t [a, b, c] := by
  simp only [LoopNest.sum_indices_cons, LoopNest.sum_indices_nil]

end Nests

/-! ## Operands from the front of their buffers -/

section Sliced

variable {α : Type} {t : Tensor α}

/-- `as_slice::<f32>` gives the elements. -/
def Sliced (t : Tensor α) : Prop :=
  t.layout.dtype = .f32 ∧ t.layout.isContiguous = true ∧ t.layout.storageOffset = 0

theorem Sliced.fresh {T : Dtype} {S : Shape} {f : Nat → α} (ht : Holds t T S f) (h : Sliced t) :
    Fresh t .f32 S f := by
  obtain ⟨hdtype, hflag, hoff⟩ := h
  obtain rfl : T = .f32 := ht.dtype.symm.trans hdtype
  exact ⟨ht.dense hflag, hoff⟩

theorem sliced_of_asSlice {xs : List α} (h : t.asSlice .f32 = .ok xs) : Sliced t := by
  by_contra hnot
  rw [Tensor.asSlice, if_pos (by simp only [Sliced] at hnot; grind)] at h
  cases h

theorem sliced_of_sliceOr {e : BackendError} {xs : List α} (h : sliceOr t e = .ok xs) :
    Sliced t := by
  unfold sliceOr at h
  split at h
  · exact sliced_of_asSlice ‹_›
  · cases h
  · cases h

theorem sliced_of_sliceExpect {xs : List α} (h : sliceExpect t = .ok xs) : Sliced t := by
  unfold sliceExpect at h
  cases hslice : t.asSlice .f32 with
  | ok ys => exact sliced_of_asSlice hslice
  | err e =>
    rw [hslice] at h
    cases h
  | panic =>
    rw [hslice] at h
    cases h

end Sliced

/-! ## Values of the kernels -/

section Values

variable {F : Type} [CommRing F] {x wt g : Tensor F} {f v u : Nat → F}
  {n cIn h w cOut kh kw ho wo padH padW : Nat}

/-- The sizes of the axes are small enough for signed arithmetic. -/
structure ConvBounds (h w kh kw ho wo : Nat) : Prop where
  h : h < 2 ^ 61
  w : w < 2 ^ 61
  kh : kh < 2 ^ 61
  kw : kw < 2 ^ 61
  ho : ho < 2 ^ 61
  wo : wo < 2 ^ 61

/-- The output at a multi-index. -/
def forwardValue (cIn h w kh kw padH padW : Nat) (X W : List Nat → F) : List Nat → F
  | [ni, co, hi, wi] =>
    ∑ ci ∈ Finset.range cIn, ∑ kr ∈ Finset.range kh, ∑ kc ∈ Finset.range kw,
      meet (inputPos h padH hi kr) (inputPos w padW wi kc) fun r c =>
        X [ni, ci, r, c] * W [co, ci, kr, kc]
  | _ => 0

/-- The input gradient at a multi-index. -/
def gradInputValue (cOut kh kw ho wo padH padW : Nat) (G W : List Nat → F) : List Nat → F
  | [ni, ci, hi, wi] =>
    ∑ co ∈ Finset.range cOut, ∑ kr ∈ Finset.range kh, ∑ kc ∈ Finset.range kw,
      meet (outputPos ho padH hi kr) (outputPos wo padW wi kc) fun r c =>
        G [ni, co, r, c] * W [co, ci, kr, kc]
  | _ => 0

/-- The weight gradient at a multi-index. -/
def gradWeightValue (n h w ho wo padH padW : Nat) (X G : List Nat → F) : List Nat → F
  | [co, ci, kr, kc] =>
    ∑ ni ∈ Finset.range n, ∑ oh ∈ Finset.range ho, ∑ ow ∈ Finset.range wo,
      meet (inputPosSigned h padH oh kr) (inputPosSigned w padW ow kc) fun r c =>
        X [ni, ci, r, c] * G [ni, co, oh, ow]
  | _ => 0

/-- One output cell. -/
theorem convWindow_eq {ni co hi wi ho wo : Nat} (hxfit : [n, cIn, h, w].prod < u64Size)
    (hwfit : [cOut, cIn, kh, kw].prod < u64Size)
    (hb : ConvBounds h w kh kw ho wo)
    (hni : ni < n) (hco : co < cOut) (hhi : hi < ho) (hwi : wi < wo) :
    convWindow ((range [n, cIn, h, w].prod).map f)
        ((range [cOut, cIn, kh, kw].prod).map v) cIn h w kh kw padH padW ni co hi wi =
      some (forwardValue cIn h w kh kw padH padW (fun I => f (linearOf [n, cIn, h, w] I))
        (fun K => v (linearOf [cOut, cIn, kh, kw] K)) [ni, co, hi, wi]) := by
  rw [convWindow, LoopNest.run_add (f := fun K => match K with
    | [ci, kr, kc] => meet (inputPos h padH hi kr) (inputPos w padW wi kc) fun r c =>
      f (linearOf [n, cIn, h, w] [ni, ci, r, c]) *
        v (linearOf [cOut, cIn, kh, kw] [co, ci, kr, kc])
    | _ => 0), zero_add, sum_three, forwardValue]
  rintro K (_ | ⟨hci, _ | ⟨hkr, _ | ⟨hkc, _ | _⟩⟩⟩) acc
  refine accumulate_eq acc ?_ ?_
  · intro r c hr hc
    have hr' := ((inputPos_iff hb.h (lt_trans hhi hb.ho) (lt_trans hkr hb.kh)).1 hr).1
    have hc' := ((inputPos_iff hb.w (lt_trans hwi hb.wo) (lt_trans hkc hb.kw)).1 hc).1
    exact read_index4 hni hci hr' hc' hxfit
  · intro r c _ _
    exact read_index4 hco hci hkr hkc hwfit

theorem conv2dForward_fresh (hx : Fresh x .f32 [n, cIn, h, w] f)
    (hw : Fresh wt .f32 [cOut, cIn, kh, kw] v)
    (hbytes : [n, cOut, convOut h padH kh, convOut w padW kw].prod * Dtype.byteSize .f32 < 2 ^ 63)
    (hb : ConvBounds h w kh kw (convOut h padH kh) (convOut w padW kw)) :
    ∃ y, conv2dForward x wt none padH padW = .ok y ∧
      Fresh y .f32 [n, cOut, convOut h padH kh, convOut w padW kw] (fun l =>
        forwardValue cIn h w kh kw padH padW (fun I => f (linearOf [n, cIn, h, w] I))
          (fun K => v (linearOf [cOut, cIn, kh, kw] K))
          (coordsOf [n, cOut, convOut h padH kh, convOut w padW kw] l)) := by
  have hxfit := prod_lt_of_bytes hx.bytes
  have hwfit := prod_lt_of_bytes hw.bytes
  obtain ⟨y, hy, hfresh⟩ := @nest_fresh F _ .f32 [n, cOut, convOut h padH kh, convOut w padW kw]
    (fun O out => match O with
      | [ni, co, hi, wi] => do
        let b ← some (0 : F)
        let acc ← convWindow ((range [n, cIn, h, w].prod).map f)
          ((range [cOut, cIn, kh, kw].prod).map v) cIn h w kh kw padH padW ni co hi wi
        LoopNest.put out (index4 ni co hi wi cOut (convOut h padH kh) (convOut w padW kw)) (acc + b)
      | _ => some out)
    (forwardValue cIn h w kh kw padH padW (fun I => f (linearOf [n, cIn, h, w] I))
      (fun K => v (linearOf [cOut, cIn, kh, kw] K)))
    (numel [n, cOut, convOut h padH kh, convOut w padW kw]) hbytes (by
      rintro O (_ | ⟨hni, _ | ⟨hco, _ | ⟨hhi, _ | ⟨hwi, _ | _⟩⟩⟩⟩) out
      simp only [convWindow_eq hxfit hwfit hb hni hco hhi hwi,
        index4_eq (inBounds_four hni hco hhi hwi) (prod_lt_of_bytes hbytes)]
      simp)
  refine ⟨y, ?_, hfresh⟩
  have hdtypes : ¬ (x.layout.dtype ≠ .f32 ∨ wt.layout.dtype ≠ .f32) := by
    simp [hx.dtype, hw.dtype]
  have hranks : ¬ (x.shape.length ≠ 4 ∨ wt.shape.length ≠ 4) := by
    simp [hx.shape, hw.shape]
  rw [conv2dForward, if_neg hdtypes, if_neg hranks]
  simp only [hx.shape, hw.shape, axisSize, getElem?_cons_zero, getElem?_cons_succ,
    expect_some, ok_bind, sliceOr, hx.asSlice, hw.asSlice, biasSlice, ne_eq,
    not_true_eq_false, if_false]
  exact hy

theorem gradInputWindow_eq {ni ci hi wi : Nat} (hgfit : [n, cOut, ho, wo].prod < u64Size)
    (hwfit : [cOut, cIn, kh, kw].prod < u64Size)
    (hb : ConvBounds h w kh kw ho wo)
    (hni : ni < n) (hci : ci < cIn) (hhi : hi < h) (hwi : wi < w) :
    gradInputWindow ((range [n, cOut, ho, wo].prod).map u)
        ((range [cOut, cIn, kh, kw].prod).map v) cIn cOut kh kw ho wo padH padW ni ci hi wi =
      some (gradInputValue cOut kh kw ho wo padH padW (fun I => u (linearOf [n, cOut, ho, wo] I))
        (fun K => v (linearOf [cOut, cIn, kh, kw] K)) [ni, ci, hi, wi]) := by
  rw [gradInputWindow, LoopNest.run_add (f := fun K => match K with
    | [co, kr, kc] => meet (outputPos ho padH hi kr) (outputPos wo padW wi kc) fun r c =>
      u (linearOf [n, cOut, ho, wo] [ni, co, r, c]) *
        v (linearOf [cOut, cIn, kh, kw] [co, ci, kr, kc])
    | _ => 0), zero_add, sum_three, gradInputValue]
  rintro K (_ | ⟨hco, _ | ⟨hkr, _ | ⟨hkc, _ | _⟩⟩⟩) acc
  refine accumulate_eq acc ?_ ?_
  · intro r c hr hc
    have hr' := ((outputPos_iff hb.ho (lt_trans hhi hb.h) (lt_trans hkr hb.kh)).1 hr).1
    have hc' := ((outputPos_iff hb.wo (lt_trans hwi hb.w) (lt_trans hkc hb.kw)).1 hc).1
    exact read_index4 hni hco hr' hc' hgfit
  · intro r c _ _
    exact read_index4 hco hci hkr hkc hwfit

theorem conv2dGradInput_fresh (hg : Fresh g .f32 [n, cOut, ho, wo] u)
    (hw : Fresh wt .f32 [cOut, cIn, kh, kw] v)
    (hbytes : [n, cIn, h, w].prod * Dtype.byteSize .f32 < 2 ^ 63)
    (hb : ConvBounds h w kh kw ho wo) :
    ∃ d, conv2dGradInput g wt [n, cIn, h, w] padH padW = .ok d ∧
      Fresh d .f32 [n, cIn, h, w] (fun l =>
        gradInputValue cOut kh kw ho wo padH padW (fun I => u (linearOf [n, cOut, ho, wo] I))
          (fun K => v (linearOf [cOut, cIn, kh, kw] K)) (coordsOf [n, cIn, h, w] l)) := by
  have hgfit := prod_lt_of_bytes hg.bytes
  have hwfit := prod_lt_of_bytes hw.bytes
  obtain ⟨d, hd, hfresh⟩ := @nest_fresh F _ .f32 [n, cIn, h, w]
    (fun I din => match I with
      | [ni, ci, hi, wi] => do
        let acc ← gradInputWindow ((range [n, cOut, ho, wo].prod).map u)
          ((range [cOut, cIn, kh, kw].prod).map v) cIn cOut kh kw ho wo padH padW ni ci hi wi
        LoopNest.put din (index4 ni ci hi wi cIn h w) acc
      | _ => some din)
    (gradInputValue cOut kh kw ho wo padH padW (fun I => u (linearOf [n, cOut, ho, wo] I))
      (fun K => v (linearOf [cOut, cIn, kh, kw] K)))
    (numel [n, cIn, h, w]) hbytes (by
      rintro I (_ | ⟨hni, _ | ⟨hci, _ | ⟨hhi, _ | ⟨hwi, _ | _⟩⟩⟩⟩) out
      simp only [gradInputWindow_eq hgfit hwfit hb hni hci hhi hwi,
        index4_eq (inBounds_four hni hci hhi hwi) (prod_lt_of_bytes hbytes)]
      rfl)
  refine ⟨d, ?_, hfresh⟩
  rw [conv2dGradInput]
  simp only [hg.shape, hw.shape, axisSize, getElem?_cons_zero, getElem?_cons_succ,
    expect_some, ok_bind, sliceOr, sliceExpect, hg.asSlice, hw.asSlice,
    unwrap_ok]
  exact hd

theorem gradWeightWindow_eq {co ci kr kc : Nat} (hxfit : [n, cIn, h, w].prod < u64Size)
    (hgfit : [n, cOut, ho, wo].prod < u64Size)
    (hb : ConvBounds h w kh kw ho wo)
    (hco : co < cOut) (hci : ci < cIn) (hkr : kr < kh) (hkc : kc < kw) :
    gradWeightWindow ((range [n, cIn, h, w].prod).map f)
        ((range [n, cOut, ho, wo].prod).map u) n cIn h w cOut ho wo padH padW co ci kr kc =
      some (gradWeightValue n h w ho wo padH padW (fun I => f (linearOf [n, cIn, h, w] I))
        (fun I => u (linearOf [n, cOut, ho, wo] I)) [co, ci, kr, kc]) := by
  rw [gradWeightWindow, LoopNest.run_add (f := fun O => match O with
    | [ni, oh, ow] => meet (inputPosSigned h padH oh kr) (inputPosSigned w padW ow kc) fun r c =>
      f (linearOf [n, cIn, h, w] [ni, ci, r, c]) *
        u (linearOf [n, cOut, ho, wo] [ni, co, oh, ow])
    | _ => 0), zero_add, sum_three, gradWeightValue]
  rintro O (_ | ⟨hni, _ | ⟨hoh, _ | ⟨how, _ | _⟩⟩⟩) acc
  refine accumulate_eq acc ?_ ?_
  · intro r c hr hc
    have hr' := ((inputPosSigned_iff hb.h (lt_trans hoh hb.ho) (lt_trans hkr hb.kh)).1 hr).1
    have hc' := ((inputPosSigned_iff hb.w (lt_trans how hb.wo) (lt_trans hkc hb.kw)).1 hc).1
    exact read_index4 hni hci hr' hc' hxfit
  · intro r c _ _
    exact read_index4 hni hco hoh how hgfit

theorem conv2dGradWeight_fresh (hx : Fresh x .f32 [n, cIn, h, w] f)
    (hg : Fresh g .f32 [n, cOut, ho, wo] u)
    (hbytes : [cOut, cIn, kh, kw].prod * Dtype.byteSize .f32 < 2 ^ 63)
    (hb : ConvBounds h w kh kw ho wo) :
    ∃ d, conv2dGradWeight x g [cOut, cIn, kh, kw] padH padW = .ok d ∧
      Fresh d .f32 [cOut, cIn, kh, kw] (fun l =>
        gradWeightValue n h w ho wo padH padW (fun I => f (linearOf [n, cIn, h, w] I))
          (fun I => u (linearOf [n, cOut, ho, wo] I)) (coordsOf [cOut, cIn, kh, kw] l)) := by
  have hxfit := prod_lt_of_bytes hx.bytes
  have hgfit := prod_lt_of_bytes hg.bytes
  obtain ⟨d, hd, hfresh⟩ := @nest_fresh F _ .f32 [cOut, cIn, kh, kw]
    (fun K dw => match K with
      | [co, ci, kr, kc] => do
        let acc ← gradWeightWindow ((range [n, cIn, h, w].prod).map f)
          ((range [n, cOut, ho, wo].prod).map u) n cIn h w cOut ho wo padH padW co ci kr kc
        LoopNest.put dw (index4 co ci kr kc cIn kh kw) acc
      | _ => some dw)
    (gradWeightValue n h w ho wo padH padW (fun I => f (linearOf [n, cIn, h, w] I))
      (fun I => u (linearOf [n, cOut, ho, wo] I)))
    (numel [cOut, cIn, kh, kw]) hbytes (by
      rintro K (_ | ⟨hco, _ | ⟨hci, _ | ⟨hkr, _ | ⟨hkc, _ | _⟩⟩⟩⟩) out
      simp only [gradWeightWindow_eq hxfit hgfit hb hco hci hkr hkc,
        index4_eq (inBounds_four hco hci hkr hkc) (prod_lt_of_bytes hbytes)]
      rfl)
  refine ⟨d, ?_, hfresh⟩
  rw [conv2dGradWeight]
  simp only [hx.shape, hg.shape, axisSize, getElem?_cons_zero, getElem?_cons_succ,
    expect_some, ok_bind, sliceExpect, hx.asSlice, hg.asSlice,
    unwrap_ok]
  exact hd

end Values

end Cpu
end Rustorch
