import Exoverifier.Domain.Basic

/-! # Abstract domains of bit vectors

The interface of `data/domain/bv.lean`: a family of abstract values, one type for
each nonzero width, with a sound transfer function for every bit-vector operator.
-/

namespace Exoverifier.Domain

class AbstrBv (α : ℕ → Type) where
  [hasGamma : ∀ {n : ℕ}, HasGamma (BitVec (n + 1)) (α (n + 1))]
  [hasDecidableGamma : ∀ {n : ℕ}, HasDecidableGamma (BitVec (n + 1)) (α (n + 1))]
  [abstrLe : ∀ {n : ℕ}, AbstrLe (BitVec (n + 1)) (α (n + 1))]
  [abstrTop : ∀ {n : ℕ}, AbstrTop (BitVec (n + 1)) (α (n + 1))]
  [abstrMeet : ∀ {n : ℕ}, AbstrMeet (BitVec (n + 1)) (α (n + 1)) (WithBot (α (n + 1)))]
  [abstrJoin : ∀ {n : ℕ}, AbstrJoin (BitVec (n + 1)) (α (n + 1)) (α (n + 1))]
  const {n : ℕ} (c : BitVec (n + 1)) : AbstrNullaryRelation (· = c) (α (n + 1))
  not {n : ℕ} : AbstrUnaryTransfer (fun x : BitVec (n + 1) => ~~~x) (α (n + 1)) (α (n + 1))
  neg {n : ℕ} : AbstrUnaryTransfer (fun x : BitVec (n + 1) => -x) (α (n + 1)) (α (n + 1))
  add {n : ℕ} : AbstrBinaryTransfer (fun x y : BitVec (n + 1) => x + y)
    (α (n + 1)) (α (n + 1)) (α (n + 1))
  sub {n : ℕ} : AbstrBinaryTransfer (fun x y : BitVec (n + 1) => x - y)
    (α (n + 1)) (α (n + 1)) (α (n + 1))
  and {n : ℕ} : AbstrBinaryTransfer (fun x y : BitVec (n + 1) => x &&& y)
    (α (n + 1)) (α (n + 1)) (α (n + 1))
  or {n : ℕ} : AbstrBinaryTransfer (fun x y : BitVec (n + 1) => x ||| y)
    (α (n + 1)) (α (n + 1)) (α (n + 1))
  xor {n : ℕ} : AbstrBinaryTransfer (fun x y : BitVec (n + 1) => x ^^^ y)
    (α (n + 1)) (α (n + 1)) (α (n + 1))
  mul {n : ℕ} : AbstrBinaryTransfer (fun x y : BitVec (n + 1) => x * y)
    (α (n + 1)) (α (n + 1)) (α (n + 1))
  udiv {n : ℕ} : AbstrBinaryTransfer (fun x y : BitVec (n + 1) => x.smtUDiv y)
    (α (n + 1)) (α (n + 1)) (α (n + 1))
  urem {n : ℕ} : AbstrBinaryTransfer (fun x y : BitVec (n + 1) => x % y)
    (α (n + 1)) (α (n + 1)) (α (n + 1))
  shl {n m : ℕ} : AbstrBinaryTransfer (fun (x : BitVec (n + 1)) (y : BitVec (m + 1)) => x <<< y)
    (α (n + 1)) (α (m + 1)) (α (n + 1))
  lshr {n m : ℕ} : AbstrBinaryTransfer (fun (x : BitVec (n + 1)) (y : BitVec (m + 1)) => x >>> y)
    (α (n + 1)) (α (m + 1)) (α (n + 1))
  ashr {n m : ℕ} : AbstrBinaryTransfer
    (fun (x : BitVec (n + 1)) (y : BitVec (m + 1)) => x.sshiftRight y.toNat)
    (α (n + 1)) (α (m + 1)) (α (n + 1))

attribute [reducible, instance] AbstrBv.hasGamma AbstrBv.hasDecidableGamma AbstrBv.abstrLe AbstrBv.abstrTop
  AbstrBv.abstrMeet AbstrBv.abstrJoin

end Exoverifier.Domain
