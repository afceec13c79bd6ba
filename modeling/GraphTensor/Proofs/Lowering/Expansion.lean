import GraphTensor.Proofs.Block.Algebra
import GraphTensor.Proofs.Lowering.Contractions
import GraphTensor.Proofs.Lowering.Terms
set_option autoImplicit false

/-! # The value of an expanded body

A body has a block of its own: that of its operations, carried out as it is written
(`Expr.blockValue?`). Its signed products (`Term.product?`) add up to this block where no product is
regrouped that must not be: a factor list is multiplied from the left, so a product on the right of
another one is taken apart, and a vector in it may meet the wrong neighbour (`Expr.KeepsGrouping`).
The shapes are checked on the signed products only.

The induction follows the body. Sums of products (`Term.AddUp`) are appended, negated, multiplied
and divided as the body's sides are; for a product this is distributivity, and the regrouping of
factors is where the condition is used. -/

namespace GraphTensor

variable {K : Type} [Field K] [LinearOrder K]

/-! ## Values of signed products -/

/-- What an assignment of blocks to operands and to parts without indices keeps to: the declared
    shapes, and that the reciprocal of a number is one. -/
structure TypeScope.Values (scope : TypeScope K) (v : Factor K → BlockValue K) : Prop where
  /-- An operand has the block of its tensor. -/
  operand : ∀ operand type, scope.tensor operand.tensor = .ok type →
    (v (.tensor operand)).shape = type.block
  /-- A part without indices has a block of its type. -/
  scalar : ∀ e block, scope.blockOf e .coefficient = .ok block → (v (.scalar e)).shape = block
  /-- The reciprocal of a number. -/
  reciprocal : ∀ e x, v (.scalar e) = .scalar x → v (.scalar e.reciprocal) = .scalar (1 / x)

/-- The product of a block with factors on its right, from the left. -/
def Factor.productFrom? (v : Factor K → BlockValue K) (left : BlockValue K)
    (factors : List (Factor K)) : Option (BlockValue K) :=
  factors.foldlM (fun left factor => left.mul? (v factor)) left

namespace Term

/-- The product of the factors from left to right, without the sign. -/
def product? (v : Factor K → BlockValue K) (t : Term K) : Option (BlockValue K) :=
  match t.factors with
  | [] => none
  | factor :: rest => Factor.productFrom? v (v factor) rest

/-- The sign as a number. -/
def sign (t : Term K) : K :=
  if t.negated then -1 else 1

/-- The product of the factors from left to right, with the sign. -/
def value? (v : Factor K → BlockValue K) (t : Term K) : Option (BlockValue K) :=
  (t.product? v).map fun product => if t.negated then product.neg else product

/-- An entry of a signed product, zero if it has no block. -/
def entry (v : Factor K → BlockValue K) (t : Term K) (i j : Nat) : K :=
  match t.value? v with
  | some b => b.entry i j
  | none => 0

end Term

/-- The link to a run: what the loops of a lowered term compute (`Machine.product?`, the product that
    the contraction of a target is a sum of) is this product, for the blocks that the factors have in the
    memory. What is said of expanded bodies below is said of runs through it. -/
theorem Machine.product?_eq {m : Machine K} {mem : Memory K} {values : IndexValues}
    {v : Factor K → BlockValue K} {t : Term K}
    (h : ∀ factor ∈ t.factors, m.factor? mem values factor = some (v factor)) :
    m.product? mem values t.factors = t.product? v := by
  unfold product? Term.product?
  cases hfactors : t.factors with
  | nil => rfl
  | cons first rest =>
      rw [hfactors] at h
      simp only [h first (List.mem_cons_self ..), Option.bind_eq_bind, Option.bind_some]
      unfold productFrom? Factor.productFrom?
      generalize v first = left
      have hrest : ∀ factor ∈ rest, m.factor? mem values factor = some (v factor) :=
        fun factor hmem => h factor (List.mem_cons_of_mem _ hmem)
      clear h hfactors
      induction rest generalizing left with
      | nil => rfl
      | cons factor rest ih =>
          simp only [List.foldlM_cons, hrest factor (List.mem_cons_self ..), Option.bind_eq_bind,
            Option.bind_some]
          exact congrArg (Option.bind _) (funext fun next =>
            ih next fun other hmem => hrest other (List.mem_cons_of_mem _ hmem))

/-! ## Values of bodies -/

/-- The block of a body as it is written. Blocks are added if their shapes agree, multiplied if their
    shapes have a product, and divided by numbers. -/
def Expr.blockValue? (v : Factor K → BlockValue K) (e : Expr K) : Option (BlockValue K) :=
  if e.hasIndexed then
    match e with
    | .indexed operand => some (v (.tensor operand))
    | .neg inner => (inner.blockValue? v).map BlockValue.neg
    | .binary .add lhs rhs => do (← lhs.blockValue? v).add? (← rhs.blockValue? v)
    | .binary .sub lhs rhs => do (← lhs.blockValue? v).sub? (← rhs.blockValue? v)
    | .binary .mul lhs rhs => do (← lhs.blockValue? v).mul? (← rhs.blockValue? v)
    | .binary .div lhs rhs => do (← lhs.blockValue? v).div? (← rhs.blockValue? v)
    | _ => none
  else some (v (.scalar e))
termination_by structural e

/-! ## Grouping -/

/-- In a product of blocks from the left, a vector is only followed by a number. -/
def BlockShape.Chains : BlockShape → List BlockShape → Prop
  | _, [] => True
  | left, next :: rest =>
    (left.rank = 1 → next = .scalar) ∧ ∀ product, left.product next = some product →
      product.Chains rest

/-- No product of the first factors is a vector before another block than a number. -/
def Term.Chains (v : Factor K → BlockValue K) (t : Term K) : Prop :=
  match t.factors with
  | [] => True
  | factor :: rest => (v factor).shape.Chains (rest.map fun factor => (v factor).shape)

/-- Taking products apart changes no value: both sides of every product have a block of their own,
    and if the left one is not a number, the products of the right side may be read from the left. -/
def Expr.KeepsGrouping (v : Factor K → BlockValue K) : Expr K → Prop
  | .neg inner => inner.KeepsGrouping v
  | .binary .mul lhs rhs =>
    lhs.KeepsGrouping v ∧ rhs.KeepsGrouping v ∧
      ((Expr.binary .mul lhs rhs).hasIndexed = true →
        ∃ x y, lhs.blockValue? v = some x ∧ rhs.blockValue? v = some y ∧
          (x.shape = .scalar ∨ ∀ terms, rhs.terms = .ok terms → ∀ t ∈ terms, t.Chains v))
  | .binary _ lhs rhs => lhs.KeepsGrouping v ∧ rhs.KeepsGrouping v
  | _ => True

/-! ## Products of products -/

section

variable {v : Factor K → BlockValue K}

/-- A block may be multiplied with factors one by one or with their product. -/
theorem Factor.productFrom?_assoc {x left q : BlockValue K} {factors : List (Factor K)}
    (h : productFrom? v left factors = some q)
    (hgroup : x.shape = .scalar ∨
      left.shape.Chains (factors.map fun factor => (v factor).shape)) :
    (x.mul? left).bind (fun product => productFrom? v product factors) = x.mul? q := by
  induction factors generalizing left with
  | nil =>
      obtain rfl := Option.some.inj h
      exact Option.bind_fun_some (x.mul? left)
  | cons factor rest ih =>
      rw [productFrom?, List.foldlM_cons] at h
      obtain ⟨next, hnext, hrest⟩ := Option.bind_eq_some_iff.1 h
      have hstep : (x.mul? left).bind (fun product => product.mul? (v factor)) = x.mul? next :=
        BlockValue.mul?_assoc hnext fun hrank => hgroup.imp_right fun hchain => hchain.1 hrank
      have htail := ih hrest (hgroup.imp_right fun hchain =>
        hchain.2 next.shape (BlockValue.mul?_spec hnext).1)
      rw [← htail, ← hstep, Option.bind_assoc]
      rfl

namespace Term

variable {t l r : Term K} {b lb rb p lp rp : BlockValue K}

theorem value?_of_product? (h : t.product? v = some p) :
    ∃ b, t.value? v = some b ∧ b.shape = p.shape ∧ ∀ i j, b.entry i j = p.entry i j * t.sign := by
  refine ⟨_, congrArg (Option.map _) h, ?_, fun i j => ?_⟩
  · dsimp only
    split
    · rfl
    · rfl
  · unfold sign
    dsimp only
    split
    · rw [BlockValue.entry_neg, mul_neg_one]
    · rw [mul_one]

theorem product?_of_value? (h : t.value? v = some b) :
    ∃ p, t.product? v = some p ∧ b.shape = p.shape ∧ ∀ i j, b.entry i j = p.entry i j * t.sign := by
  obtain ⟨p, hp, _⟩ := Option.map_eq_some_iff.1 h
  obtain ⟨b', hb', hspec⟩ := value?_of_product? hp
  obtain rfl := Option.some.inj (h.symm.trans hb')
  exact ⟨p, hp, hspec⟩

omit [LinearOrder K] in
theorem sign_mul (l r : Term K) : (l.mul r).sign = l.sign * r.sign := by
  cases hl : l.negated <;> cases hr : r.negated <;> simp [sign, mul, hl, hr]

omit [Field K] [LinearOrder K] in
theorem append_eq_mul (t : Term K) (factor : Factor K) :
    t.append factor = t.mul ⟨false, [factor]⟩ := by
  simp [append, mul]

omit [LinearOrder K] in
theorem sign_negate (t : Term K) : t.negate.sign = -t.sign := by
  cases h : t.negated <;> simp [sign, negate, h]

theorem product?_mul (hl : l.product? v = some lp) (hr : r.product? v = some rp)
    (hgroup : lp.shape = .scalar ∨ r.Chains v) : (l.mul r).product? v = lp.mul? rp := by
  unfold product? at hl hr
  unfold Chains at hgroup
  cases hfactors : l.factors with
  | nil => simp [hfactors] at hl
  | cons first before =>
      cases hfactors' : r.factors with
      | nil => simp [hfactors'] at hr
      | cons factor rest =>
          simp only [hfactors, hfactors'] at hl hr hgroup
          rw [← Factor.productFrom?_assoc hr hgroup]
          simp only [product?, mul, hfactors, hfactors', List.cons_append]
          rw [Factor.productFrom?, List.foldlM_append]
          exact congrArg (Option.bind · _) hl

theorem value?_mul (hl : l.value? v = some lb) (hr : r.value? v = some rb)
    (hgroup : lb.shape = .scalar ∨ r.Chains v) {w : BlockValue K} {x y : BlockValue K}
    (hx : lb.shape = x.shape) (hy : rb.shape = y.shape) (hw : x.mul? y = some w) :
    ∃ b, (l.mul r).value? v = some b ∧ b.shape = w.shape ∧
      ∀ i j, b.entry i j = BlockValue.productEntry x.shape y.shape lb.entry rb.entry i j := by
  obtain ⟨lp, hlp, hlshape, hlentry⟩ := product?_of_value? hl
  obtain ⟨rp, hrp, hrshape, hrentry⟩ := product?_of_value? hr
  have hshape : lp.shape.product rp.shape = some w.shape := by
    rw [← hlshape, ← hrshape, hx, hy]
    exact (BlockValue.mul?_spec hw).1
  obtain ⟨p, hp, hpshape⟩ := BlockValue.mul?_of_product hshape
  obtain ⟨b, hb, hbshape, hbentry⟩ :=
    value?_of_product? ((product?_mul hlp hrp (hlshape ▸ hgroup)).trans hp)
  refine ⟨b, hb, hbshape.trans hpshape, fun i j => ?_⟩
  rw [hbentry, (BlockValue.mul?_spec hp).2, sign_mul, ← hlshape, ← hrshape, hx, hy,
    funext₂ hlentry, funext₂ hrentry, BlockValue.productEntry_mul_left,
    BlockValue.productEntry_mul_right, mul_right_comm, mul_assoc]

theorem value?_negate (h : t.value? v = some b) : t.negate.value? v = some b.neg := by
  obtain ⟨p, hp, hshape, hentry⟩ := product?_of_value? h
  obtain ⟨b', hb', hshape', hentry'⟩ := value?_of_product? (t := t.negate) hp
  refine hb'.trans (congrArg some (BlockValue.ext_entry (hshape'.trans hshape.symm) ?_))
  intro i _ j _
  rw [hentry', BlockValue.entry_neg, hentry, ← mul_neg, sign_negate]

theorem entry_of_value? (h : t.value? v = some b) (i j : Nat) : t.entry v i j = b.entry i j := by
  rw [entry, h]

omit [Field K] [LinearOrder K] in
theorem negate_negate (t : Term K) : t.negate.negate = t := by
  simp [negate]

theorem value?_of_negate (h : t.negate.value? v = some b) : t.value? v = some b.neg := by
  rw [← value?_negate h, negate_negate]

/-- The shapes of two products determine that of the product of both. -/
theorem product_of_value?_mul (h : (l.mul r).value? v = some b) (hl : l.value? v = some lb)
    (hr : r.value? v = some rb) (hgroup : lb.shape = .scalar ∨ r.Chains v) :
    lb.shape.product rb.shape = some b.shape := by
  obtain ⟨lp, hlp, hlshape, _⟩ := product?_of_value? hl
  obtain ⟨rp, hrp, hrshape, _⟩ := product?_of_value? hr
  obtain ⟨p, hp, hshape, _⟩ := product?_of_value? h
  rw [product?_mul hlp hrp (hlshape ▸ hgroup)] at hp
  rw [hlshape, hrshape, hshape]
  exact (BlockValue.mul?_spec hp).1

theorem value?_of_append {factor : Factor K} (hne : t.factors ≠ [])
    (hfactor : (v factor).shape = .scalar) (h : (t.append factor).value? v = some b) :
    ∃ b', t.value? v = some b' ∧ b'.shape = b.shape := by
  obtain ⟨q, hq, hqshape, _⟩ := product?_of_value? h
  obtain ⟨first, rest, hfactors⟩ := List.exists_cons_of_ne_nil hne
  simp only [product?, append, hfactors, List.cons_append] at hq
  rw [Factor.productFrom?, List.foldlM_append] at hq
  obtain ⟨p, hp, hpq⟩ := Option.bind_eq_some_iff.1 hq
  have hproduct : t.product? v = some p := by
    simp only [product?, hfactors]
    exact hp
  obtain ⟨b', hb', hshape, _⟩ := value?_of_product? hproduct
  refine ⟨b', hb', hshape.trans (Eq.trans ?_ hqshape.symm)⟩
  have hpq : p.mul? (v factor) = some q := by simpa using hpq
  have hshapes := (BlockValue.mul?_spec hpq).1
  rw [hfactor, BlockShape.product_scalar_right] at hshapes
  exact Option.some.inj hshapes

/-! ## Sums of products -/

/-- Signed products of one shape add up to a block of it. -/
structure AddUp (v : Factor K → BlockValue K) (ts : List (Term K)) (x : BlockValue K) : Prop where
  /-- Every product has the shape of the sum. -/
  shape : ∀ t ∈ ts, ∃ b, t.value? v = some b ∧ b.shape = x.shape
  /-- Every entry is the sum of those of the products. -/
  entry : ∀ i j, x.entry i j = (ts.map fun t => t.entry v i j).sum

namespace AddUp

variable {ts us : List (Term K)} {x y z : BlockValue K}

theorem single (h : t.value? v = some x) : AddUp v [t] x where
  shape := fun t' ht' => ⟨x, List.mem_singleton.1 ht' ▸ h, rfl⟩
  entry := fun i j => by simp [entry_of_value? h]

theorem append (hx : AddUp v ts x) (hy : AddUp v us y) (h : x.add? y = some z) :
    AddUp v (ts ++ us) z := by
  obtain ⟨hshape, hxy, hentry⟩ := BlockValue.entry_add? h
  refine ⟨fun t ht => ?_, fun i j => ?_⟩
  · rcases List.mem_append.1 ht with ht | ht
    · obtain ⟨b, hb, hbshape⟩ := hx.shape t ht
      exact ⟨b, hb, hbshape.trans hshape.symm⟩
    · obtain ⟨b, hb, hbshape⟩ := hy.shape t ht
      exact ⟨b, hb, hbshape.trans (hxy.symm.trans hshape.symm)⟩
  · rw [hentry, hx.entry, hy.entry, List.map_append, List.sum_append]

theorem negate (hx : AddUp v ts x) : AddUp v (ts.map Term.negate) x.neg := by
  refine ⟨fun t ht => ?_, fun i j => ?_⟩
  · obtain ⟨u, hu, rfl⟩ := List.mem_map.1 ht
    obtain ⟨b, hb, hshape⟩ := hx.shape u hu
    exact ⟨b.neg, value?_negate hb, hshape⟩
  · have hterm : ∀ t ∈ ts, t.negate.entry v i j = -t.entry v i j := by
      intro t ht
      obtain ⟨b, hb, _⟩ := hx.shape t ht
      rw [entry_of_value? (value?_negate hb), entry_of_value? hb, BlockValue.entry_neg]
    rw [BlockValue.entry_neg, hx.entry, List.sum_neg, List.map_map, List.map_map]
    exact congrArg List.sum (List.map_congr_left fun t ht => (hterm t ht).symm)

/-- Products are distributed over sums. -/
theorem mul (hx : AddUp v ts x) (hy : AddUp v us y) (h : x.mul? y = some z)
    (hgroup : x.shape = .scalar ∨ ∀ u ∈ us, u.Chains v) :
    AddUp v (ts.flatMap fun t => us.map fun u => t.mul u) z := by
  have hterm : ∀ t ∈ ts, ∀ u ∈ us, ∃ b, (t.mul u).value? v = some b ∧ b.shape = z.shape ∧
      ∀ i j, b.entry i j =
        BlockValue.productEntry x.shape y.shape (t.entry v) (u.entry v) i j := by
    intro t ht u hu
    obtain ⟨lb, hlb, hlshape⟩ := hx.shape t ht
    obtain ⟨rb, hrb, hrshape⟩ := hy.shape u hu
    obtain ⟨b, hb, hshape, hentry⟩ :=
      value?_mul hlb hrb (hgroup.imp hlshape.trans fun hchain => hchain u hu) hlshape hrshape h
    refine ⟨b, hb, hshape, fun i j => ?_⟩
    rw [hentry, funext₂ (entry_of_value? hlb), funext₂ (entry_of_value? hrb)]
  refine ⟨fun w hw => ?_, fun i j => ?_⟩
  · obtain ⟨t, ht, hw⟩ := List.mem_flatMap.1 hw
    obtain ⟨u, hu, rfl⟩ := List.mem_map.1 hw
    obtain ⟨b, hb, hshape, _⟩ := hterm t ht u hu
    exact ⟨b, hb, hshape⟩
  · rw [(BlockValue.mul?_spec h).2, funext₂ hx.entry, funext₂ hy.entry,
      BlockValue.productEntry_sum_left, List.map_flatMap,
      List.flatMap_def, List.sum_flatten, List.map_map]
    refine congrArg List.sum (List.map_congr_left fun t ht => ?_)
    rw [BlockValue.productEntry_sum_right, Function.comp_apply, List.map_map]
    refine congrArg List.sum (List.map_congr_left fun u hu => ?_)
    obtain ⟨b, hb, _, hentry⟩ := hterm t ht u hu
    rw [Function.comp_apply, entry_of_value? hb, hentry]

/-- A sum is divided by a number product by product. -/
theorem div {divisor : Factor K} {c : K} (hx : AddUp v ts x) (hfactor : v divisor = .scalar (1 / c))
    (h : x.div? (.scalar c) = some z) : AddUp v (ts.map fun t => t.append divisor) z := by
  have hone : AddUp v [⟨false, [divisor]⟩] (.scalar (1 / c)) := single (by rw [← hfactor]; rfl)
  rw [BlockValue.div?_scalar] at h
  have hmul := hx.mul hone h (.inr fun u hu => List.mem_singleton.1 hu ▸ trivial)
  simp only [List.map_singleton, ← append_eq_mul] at hmul
  rwa [← List.map_eq_flatMap] at hmul

theorem foldlM_add?_eq {start : BlockValue K} (hshape : start.shape = x.shape)
    (hts : ∀ t ∈ ts, ∃ b, t.value? v = some b ∧ b.shape = x.shape)
    (hentry : ∀ i j, x.entry i j = start.entry i j + (ts.map fun t => t.entry v i j).sum) :
    (ts.map (Term.value? v)).foldlM (fun sum b => do sum.add? (← b)) start = some x := by
  induction ts generalizing start with
  | nil =>
      refine congrArg some (BlockValue.ext_entry hshape fun i _ j _ => ?_)
      rw [hentry, List.map_nil, List.sum_nil, add_zero]
  | cons t ts ih =>
      obtain ⟨b, hb, hbshape⟩ := hts t (List.mem_cons_self ..)
      obtain ⟨next, hnext, _⟩ := BlockValue.add?_of_shape (hshape.trans hbshape.symm)
      obtain ⟨hnshape, _, hnentry⟩ := BlockValue.entry_add? hnext
      have hrest := ih (hnshape.trans hshape) (fun t ht => hts t (List.mem_cons_of_mem _ ht))
        fun i j => by
          rw [hentry, hnentry, List.map_cons, List.sum_cons, entry_of_value? hb, add_assoc]
      simpa [hb, hnext] using hrest

/-- The signed products add up, from the left onto zero. -/
theorem sumBlocks?_eq (h : AddUp v ts x) :
    sumBlocks? x.shape (ts.map (Term.value? v)) = some x := by
  refine foldlM_add?_eq rfl h.shape fun i j => ?_
  rw [h.entry, BlockValue.entry_zeros, zero_add]

end AddUp

end Term

end

/-! ## The induction over a body -/

namespace Expr

section

variable {v : Factor K → BlockValue K} {e : Expr K} {ts : List (Term K)} {x : BlockValue K}

theorem blockValue?_scalar (h : e.hasIndexed = false) : e.blockValue? v = some (v (.scalar e)) := by
  unfold blockValue?
  rw [h]
  rfl

/-- **The signed products of a body add up to its block.** -/
theorem Expands.addUp (h : e.Expands ts) (hgroup : e.KeepsGrouping v)
    (hreciprocal : ∀ e c, v (.scalar e) = .scalar c → v (.scalar e.reciprocal) = .scalar (1 / c))
    (hx : e.blockValue? v = some x) : Term.AddUp v ts x := by
  induction h generalizing x with
  | scalar h =>
      rw [blockValue?_scalar h] at hx
      exact .single hx
  | indexed operand => exact .single hx
  | neg hi _ ih =>
      rw [blockValue?, if_pos hi] at hx
      obtain ⟨y, hy, rfl⟩ := Option.map_eq_some_iff.1 hx
      exact (ih hgroup hy).negate
  | add hi _ _ ihl ihr =>
      rw [blockValue?, if_pos hi] at hx
      obtain ⟨y, hy, hx⟩ := Option.bind_eq_some_iff.1 hx
      obtain ⟨z, hz, hx⟩ := Option.bind_eq_some_iff.1 hx
      exact (ihl hgroup.1 hy).append (ihr hgroup.2 hz) hx
  | sub hi _ _ ihl ihr =>
      rw [blockValue?, if_pos hi] at hx
      obtain ⟨y, hy, hx⟩ := Option.bind_eq_some_iff.1 hx
      obtain ⟨z, hz, hx⟩ := Option.bind_eq_some_iff.1 hx
      exact (ihl hgroup.1 hy).append (ihr hgroup.2 hz).negate (BlockValue.add?_neg y z ▸ hx)
  | mul hi _ hr ihl ihr =>
      rw [blockValue?, if_pos hi] at hx
      obtain ⟨y, hy, hx⟩ := Option.bind_eq_some_iff.1 hx
      obtain ⟨z, hz, hx⟩ := Option.bind_eq_some_iff.1 hx
      obtain ⟨hgroupl, hgroupr, hsides⟩ := hgroup
      obtain ⟨y', _, hy', _, hchain⟩ := hsides hi
      obtain rfl := Option.some.inj (hy.symm.trans hy')
      exact (ihl hgroupl hy).mul (ihr hgroupr hz) hx
        (hchain.imp_right fun hchain => hchain _ hr.terms_eq)
  | div hi _ hr ih =>
      rw [blockValue?, if_pos hi] at hx
      obtain ⟨y, hy, hx⟩ := Option.bind_eq_some_iff.1 hx
      rw [blockValue?_scalar hr, Option.bind_eq_bind, Option.bind_some] at hx
      obtain ⟨c, hc⟩ := BlockValue.eq_scalar_of_div? hx
      rw [hc] at hx
      exact (ih hgroup.1 hy).div (hreciprocal _ c hc) hx

theorem Expands.factors_ne_nil (h : e.Expands ts) : ∀ t ∈ ts, t.factors ≠ [] := by
  induction h with
  | scalar _ => simp
  | indexed _ => simp
  | neg _ _ ih => simpa [Term.negate] using ih
  | add _ _ _ ihl ihr =>
      intro t ht
      exact (List.mem_append.1 ht).elim (ihl t) (ihr t)
  | sub _ _ _ ihl ihr =>
      intro t ht
      rcases List.mem_append.1 ht with ht | ht
      · exact ihl t ht
      · obtain ⟨u, hu, rfl⟩ := List.mem_map.1 ht
        exact ihr u hu
  | mul _ _ _ ihl _ =>
      intro t ht
      obtain ⟨l, hl, ht⟩ := List.mem_flatMap.1 ht
      obtain ⟨r, _, rfl⟩ := List.mem_map.1 ht
      exact List.append_ne_nil_of_left_ne_nil (ihl l hl) _
  | div _ _ _ _ => simp [Term.append]

/-- A body whose signed products have blocks of one shape has a block of that shape. -/
theorem Expands.blockValue?_of_values {s : BlockShape} (h : e.Expands ts) (hgroup : e.KeepsGrouping v)
    (hreciprocal : ∀ e c, v (.scalar e) = .scalar c → v (.scalar e.reciprocal) = .scalar (1 / c))
    (hdivisor : ∀ t ∈ ts, ∀ d : Expr K, .scalar d.reciprocal ∈ t.factors →
      (v (.scalar d)).shape = .scalar)
    (hts : ∀ t ∈ ts, ∃ b, t.value? v = some b ∧ b.shape = s) :
    ∃ x, e.blockValue? v = some x ∧ x.shape = s := by
  induction h with
  | scalar h =>
      rw [blockValue?_scalar h]
      exact hts _ (List.mem_singleton_self _)
  | indexed operand => exact hts _ (List.mem_singleton_self _)
  | @neg inner ts hi _ ih =>
      have hinner : ∀ t ∈ ts, ∃ b, t.value? v = some b ∧ b.shape = s := by
        intro t ht
        obtain ⟨b, hb, hshape⟩ := hts _ (List.mem_map_of_mem ht)
        exact ⟨b.neg, Term.value?_of_negate hb, hshape⟩
      obtain ⟨x, hx, hshape⟩ := ih hgroup
        (fun t ht => hdivisor t.negate (List.mem_map_of_mem ht)) hinner
      rw [blockValue?, if_pos hi, hx]
      exact ⟨x.neg, rfl, hshape⟩
  | add hi _ _ ihl ihr =>
      obtain ⟨x, hx, hxshape⟩ := ihl hgroup.1
        (fun t ht => hdivisor t (List.mem_append_left _ ht))
        fun t ht => hts t (List.mem_append_left _ ht)
      obtain ⟨y, hy, hyshape⟩ := ihr hgroup.2
        (fun t ht => hdivisor t (List.mem_append_right _ ht))
        fun t ht => hts t (List.mem_append_right _ ht)
      obtain ⟨z, hz, _⟩ := BlockValue.add?_of_shape (hxshape.trans hyshape.symm)
      rw [blockValue?, if_pos hi, hx, hy]
      exact ⟨z, hz, (BlockValue.entry_add? hz).1.trans hxshape⟩
  | sub hi _ _ ihl ihr =>
      obtain ⟨x, hx, hxshape⟩ := ihl hgroup.1
        (fun t ht => hdivisor t (List.mem_append_left _ ht))
        fun t ht => hts t (List.mem_append_left _ ht)
      obtain ⟨y, hy, hyshape⟩ := ihr hgroup.2
        (fun t ht => hdivisor t.negate (List.mem_append_right _ (List.mem_map_of_mem ht)))
        fun t ht => by
          obtain ⟨b, hb, hshape⟩ := hts _ (List.mem_append_right _ (List.mem_map_of_mem ht))
          exact ⟨b.neg, Term.value?_of_negate hb, hshape⟩
      obtain ⟨z, hz, _⟩ := BlockValue.sub?_of_shape (hxshape.trans hyshape.symm)
      rw [blockValue?, if_pos hi, hx, hy]
      exact ⟨z, hz, (BlockValue.entry_sub? hz).1.trans hxshape⟩
  | mul hi hl hr _ _ =>
      obtain ⟨hgroupl, hgroupr, hsides⟩ := hgroup
      obtain ⟨x, y, hx, hy, hchain⟩ := hsides hi
      have hxs := hl.addUp hgroupl hreciprocal hx
      have hys := hr.addUp hgroupr hreciprocal hy
      -- one product of each side decides the shape of all
      obtain ⟨l, hlmem⟩ := List.exists_mem_of_ne_nil _ hl.ne_nil
      obtain ⟨r, hrmem⟩ := List.exists_mem_of_ne_nil _ hr.ne_nil
      obtain ⟨b, hb, hshape⟩ := hts _ (List.mem_flatMap.2 ⟨l, hlmem, List.mem_map_of_mem hrmem⟩)
      obtain ⟨lb, hlb, hlshape⟩ := hxs.shape l hlmem
      obtain ⟨rb, hrb, hrshape⟩ := hys.shape r hrmem
      have hproduct := Term.product_of_value?_mul hb hlb hrb
        (hchain.imp hlshape.trans fun hchain => hchain _ hr.terms_eq r hrmem)
      rw [hlshape, hrshape, hshape] at hproduct
      obtain ⟨z, hz, hzshape⟩ := BlockValue.mul?_of_product hproduct
      rw [blockValue?, if_pos hi, hx, hy]
      exact ⟨z, hz, hzshape⟩
  | @div lhs rhs left hi hl hr ih =>
      have hscalar : (v (.scalar rhs)).shape = .scalar := by
        obtain ⟨t, ht⟩ := List.exists_mem_of_ne_nil _ hl.ne_nil
        exact hdivisor _ (List.mem_map_of_mem ht) rhs (by simp [Term.append])
      obtain ⟨c, hc⟩ : ∃ c, v (.scalar rhs) = .scalar c := ⟨_, BlockValue.eq_scalar_of_shape hscalar⟩
      have hleft : ∀ t ∈ left, ∃ b, t.value? v = some b ∧ b.shape = s := by
        intro t ht
        obtain ⟨b, hb, hshape⟩ := hts _ (List.mem_map_of_mem ht)
        obtain ⟨b', hb', hshape'⟩ := Term.value?_of_append (hl.factors_ne_nil t ht)
          (by rw [hreciprocal rhs c hc]; rfl) hb
        exact ⟨b', hb', hshape'.trans hshape⟩
      obtain ⟨x, hx, hxshape⟩ := ih hgroup.1
        (fun t ht d hd => hdivisor _ (List.mem_map_of_mem ht) d (List.mem_append_left _ hd)) hleft
      rw [blockValue?, if_pos hi, hx, blockValue?_scalar hr, hc]
      exact ⟨_, rfl, hxshape⟩

end

end Expr

/-! ## Values of parts without indices -/

namespace TypeScope

variable {scope : TypeScope K}

omit [Field K] [LinearOrder K] in
/-- A number divided by something is a number, and so is the divisor. -/
theorem blockOf_div {e : Expr K} {x : K} {block : BlockShape}
    (h : scope.blockOf (.binary .div (.literal (.float x)) e) .coefficient = .ok block) :
    block = .scalar ∧ scope.blockOf e .coefficient = .ok .scalar := by
  unfold blockOf at h ⊢
  obtain ⟨type, htype, hblock⟩ := Outcome.bind_eq_ok_iff.1 h
  rw [typeOf] at htype
  obtain ⟨number, hnumber, htype⟩ := Outcome.bind_eq_ok_iff.1 htype
  obtain ⟨divisor, hdivisor, htype⟩ := Outcome.bind_eq_ok_iff.1 htype
  obtain rfl : ValueType.block .scalar = number := Except.ok.inj hnumber
  rw [hdivisor]
  cases divisor with
  | block shape =>
      by_cases hscalar : shape = .scalar
      · subst hscalar
        obtain rfl : ValueType.block .scalar = type := Except.ok.inj htype
        exact ⟨(Except.ok.inj hblock).symm, rfl⟩
      · simp [BinaryOp.resultType, hscalar, Outcome.orFail] at htype
  | _ => cases htype

/-- Numbers in a shape, zeros if they do not fill it. -/
def fit (shape : BlockShape) (numbers : Array K) : BlockValue K :=
  (BlockValue.ofArray? shape numbers).getD (.zeros shape)

theorem shape_fit (shape : BlockShape) (numbers : Array K) : (fit shape numbers).shape = shape := by
  unfold fit BlockValue.ofArray?
  split
  · rfl
  · rfl

/-- The block of a part without indices: constants are themselves, and what is not known is zero. -/
def coefficient (scope : TypeScope K) : Expr K → BlockValue K
  | .literal (.float x) => .scalar x
  | .binary .div (.literal (.float x)) e => .scalar (x / (coefficient scope e).entry 0 0)
  | e =>
    match scope.blockOf e .coefficient with
    | .ok block => .zeros block
    | .error _ => .scalar 0

/-- The blocks of factors whose tensors hold the given numbers. -/
def reading (scope : TypeScope K) (numbers : VarName → Array K) : Factor K → BlockValue K
  | .tensor operand =>
    match scope.tensor operand.tensor with
    | .ok type => fit type.block (numbers operand.tensor)
    | .error _ => .scalar 0
  | .scalar e => scope.coefficient e

theorem values_reading (scope : TypeScope K) (numbers : VarName → Array K) :
    scope.Values (scope.reading numbers) where
  operand := fun operand type h => by
    rw [reading, h]
    exact shape_fit _ _
  scalar := fun e block h => by
    rw [reading]
    unfold coefficient
    split
    · exact Except.ok.inj h
    · exact (blockOf_div h).1.symm
    · rw [h]
      rfl
  reciprocal := fun e x h => by
    rw [reading] at h ⊢
    rw [Expr.reciprocal, coefficient, h, BlockValue.entry_scalar]

end TypeScope

/-! ## Terms that pass -/

namespace Contraction

variable {c : Contraction} {scope : TypeScope K} {v : Factor K → BlockValue K}
  {seen seen' : Occurrences}

theorem shape_of_checkFactor (hv : scope.Values v) {factor : Factor K} {block : BlockShape}
    (h : c.checkFactor scope seen factor = .ok (seen', block)) :
    (v factor).shape = block ∧
      ∀ d : Expr K, factor = .scalar d.reciprocal → (v (.scalar d)).shape = .scalar := by
  cases factor with
  | scalar value =>
      obtain ⟨b, hb, h⟩ := Outcome.bind_eq_ok_iff.1 h
      obtain ⟨rfl, rfl⟩ := Prod.mk.inj (Except.ok.inj h)
      refine ⟨hv.scalar value _ hb, ?_⟩
      rintro d ⟨⟩
      exact hv.scalar d _ (TypeScope.blockOf_div hb).2
  | tensor operand =>
      obtain ⟨type, htype, h⟩ := Outcome.bind_eq_ok_iff.1 h
      split at h
      · cases h
      · obtain ⟨_, _, h⟩ := Outcome.bind_eq_ok_iff.1 h
        obtain ⟨rfl, rfl⟩ := Prod.mk.inj (Except.ok.inj h)
        exact ⟨hv.operand operand type htype, fun d hd => by cases hd⟩

theorem productFrom?_of_checkFactors (hv : scope.Values v) {factors : List (Factor K)}
    {left : BlockValue K} {product : Option BlockShape}
    (h : c.checkFactors scope seen (some left.shape) factors = .ok (seen', product)) :
    (∃ b, Factor.productFrom? v left factors = some b ∧ product = some b.shape) ∧
      ∀ d : Expr K, .scalar d.reciprocal ∈ factors → (v (.scalar d)).shape = .scalar := by
  induction factors generalizing seen left with
  | nil =>
      obtain ⟨rfl, rfl⟩ := Prod.mk.inj (Except.ok.inj h)
      exact ⟨⟨left, rfl, rfl⟩, fun d hd => by cases hd⟩
  | cons factor rest ih =>
      rw [checkFactors] at h
      obtain ⟨⟨next, block⟩, hfactor, h⟩ := Outcome.bind_eq_ok_iff.1 h
      obtain ⟨shape, hshape, h⟩ := Outcome.bind_eq_ok_iff.1 h
      obtain ⟨rfl, hdivisor⟩ := shape_of_checkFactor hv hfactor
      obtain ⟨p, hp, rfl⟩ := BlockValue.mul?_of_product (Outcome.orFail_eq_ok_iff.1 hshape)
      obtain ⟨⟨b, hb, hproduct⟩, hdivisors⟩ := ih h
      refine ⟨⟨b, ?_, hproduct⟩, fun d hd => ?_⟩
      · rw [Factor.productFrom?, List.foldlM_cons, hp]
        exact hb
      · rcases List.mem_cons.1 hd with hd | hd
        · exact hdivisor d hd.symm
        · exact hdivisors d hd

/-- A signed product that passes has the block of the target, and all that it is divided by are
    numbers. -/
theorem value?_of_checkTerm (hv : scope.Values v) {t : Term K} {bound : List IndexVar}
    (h : c.checkTerm scope t = .ok bound) :
    (∃ b, t.value? v = some b ∧ b.shape = c.type.block) ∧
      ∀ d : Expr K, .scalar d.reciprocal ∈ t.factors → (v (.scalar d)).shape = .scalar := by
  unfold checkTerm at h
  obtain ⟨⟨seen, product⟩, hfactors, h⟩ := Outcome.bind_eq_ok_iff.1 h
  cases hfactors' : t.factors with
  | nil =>
      rw [hfactors'] at hfactors
      obtain ⟨-, rfl⟩ := Prod.mk.inj (Except.ok.inj hfactors)
      cases h
  | cons factor rest =>
      rw [hfactors', checkFactors] at hfactors
      obtain ⟨⟨next, block⟩, hfactor, hrest⟩ := Outcome.bind_eq_ok_iff.1 hfactors
      obtain ⟨rfl, hdivisor⟩ := shape_of_checkFactor hv hfactor
      obtain ⟨⟨p, hp, rfl⟩, hdivisors⟩ := productFrom?_of_checkFactors hv hrest
      have hshape : p.shape = c.type.block := by
        obtain ⟨_, hblock, _⟩ := Outcome.bind_eq_ok_iff.1 h
        by_contra hne
        simp [Outcome.failIf, hne] at hblock
      have hproduct : t.product? v = some p := by
        simp only [Term.product?, hfactors']
        exact hp
      obtain ⟨b, hb, hbshape, _⟩ := Term.value?_of_product? hproduct
      refine ⟨⟨b, hb, hbshape.trans hshape⟩, fun d hd => ?_⟩
      rcases List.mem_cons.1 hd with hd | hd
      · exact hdivisor d hd.symm
      · exact hdivisors d hd

end Contraction

/-! ## Bodies -/

/-- **Expansion keeps the block of a body.** -/
theorem Contraction.sum_of_expansion (c : Contraction) (scope : TypeScope K)
    (v : Factor K → BlockValue K) (hv : scope.Values v) (body : Expr K) (terms : List (Term K))
    (hterms : body.terms = .ok terms)
    (hcheck : ∀ t ∈ terms, ∃ bound, c.checkTerm scope t = .ok bound)
    (hgroup : body.KeepsGrouping v) :
    ∃ x, body.blockValue? v = some x ∧ x.shape = c.type.block ∧
      sumBlocks? c.type.block (terms.map (Term.value? v)) = some x := by
  have hexpands := body.expands_of_terms hterms
  have hvalues : ∀ t ∈ terms, ∃ b, t.value? v = some b ∧ b.shape = c.type.block := by
    intro t ht
    obtain ⟨bound, hbound⟩ := hcheck t ht
    exact (Contraction.value?_of_checkTerm hv hbound).1
  have hdivisors : ∀ t ∈ terms, ∀ d : Expr K, .scalar d.reciprocal ∈ t.factors →
      (v (.scalar d)).shape = .scalar := by
    intro t ht
    obtain ⟨bound, hbound⟩ := hcheck t ht
    exact (Contraction.value?_of_checkTerm hv hbound).2
  obtain ⟨x, hx, hshape⟩ :=
    hexpands.blockValue?_of_values hgroup hv.reciprocal hdivisors hvalues
  exact ⟨x, hx, hshape, hshape ▸ (hexpands.addUp hgroup hv.reciprocal hx).sumBlocks?_eq⟩

/-! ### Bodies over vectors and matrices -/

namespace VectorBody

/-- The index of a vertex. -/
def free : List IndexVar :=
  [⟨"i", .set "V"⟩]

/-- A vector, a matrix and a number for each vertex, and what is computed from them. -/
def scope : TypeScope ℚ :=
  .ofFunc <| (Func.named "f").withSet (.plain "V")
    |>.withLocal "s" (.vector "V" .scalar)
    |>.withLocal "a" (.vector "V" (.vector 2))
    |>.withLocal "b" (.vector "V" (.vector 2))
    |>.withLocal "c" (.vector "V" (.vector 2))
    |>.withLocal "m" (.vector "V" (.matrix 2 2))
    |>.withResult "y" (.vector "V" (.vector 2))

/-- The assignment of the result. -/
def target : Contraction :=
  ⟨Table.empty, "y", .vector "V" (.vector 2), .dense, free⟩

/-- The numbers of the operands. -/
def numbers (name : VarName) : Array ℚ :=
  if name = "a" then #[1, 0]
  else if name = "b" then #[0, 1]
  else if name = "c" then #[1, 1]
  else if name = "m" then #[1, 2, 3, 4]
  else #[5]

/-- An operand at a vertex. -/
def operand (name : VarName) : Expr ℚ :=
  .indexed ⟨name, free⟩

/-- Half of the negative of a matrix times a difference. -/
def linear : Expr ℚ :=
  .binary .div (.neg (.binary .mul (operand "m") (.binary .sub (operand "a") (operand "b"))))
    (.literal (.float 2))

/-- A vector scaled by an inner product. -/
def scaled : Expr ℚ :=
  .binary .mul (operand "a") (.binary .mul (operand "b") (operand "c"))

/-- A number and a matrix are added, and the sum is applied to a vector. -/
def mixed : Expr ℚ :=
  .binary .mul (.binary .add (operand "s") (operand "m")) (operand "a")

end VectorBody

open VectorBody in
/-- A matrix applied to a difference of vectors: negated and halved, its two products add up to the
    block of the body. -/
theorem linear_sum_of_expansion :
    ∃ terms x, VectorBody.linear.terms = .ok terms ∧
      VectorBody.linear.blockValue? (scope.reading numbers) = some x ∧
      x.shape = .vector 2 ∧
      sumBlocks? (.vector 2) (terms.map (Term.value? (scope.reading numbers))) = some x := by
  obtain ⟨terms, hterms, hpass⟩ : ∃ terms, linear.terms = .ok terms ∧
      ∀ t ∈ terms, ∃ bound, target.checkTerm scope t = .ok bound ∧ True := by
    decide +kernel
  have hgroup : linear.KeepsGrouping (scope.reading numbers) := by
    refine ⟨⟨trivial, ⟨trivial, trivial⟩, fun _ => ?_⟩, trivial⟩
    refine ⟨_, _, rfl, rfl, .inr fun terms hterms t ht => ?_⟩
    obtain rfl := Except.ok.inj hterms
    obtain rfl | rfl : t = _ ∨ t = _ := by simpa using ht
    · trivial
    · trivial
  obtain ⟨x, hx, hshape, hsum⟩ := Contraction.sum_of_expansion target scope
    (scope.reading numbers) (TypeScope.values_reading _ _) linear terms hterms
    (fun t ht => (hpass t ht).imp fun _ h => h.1) hgroup
  exact ⟨terms, x, hterms, hx, hshape, hsum⟩

/-- The block of two numbers. -/
def VectorBody.pair (x y : ℚ) : BlockValue ℚ :=
  ⟨.vector 2, #[x, y], rfl⟩

open VectorBody in
/-- Without its parentheses the inner product becomes that of the first two vectors. A sum of a number
    and a matrix passes, because each of its products has a block. -/
theorem scaled_regrouped :
    ∃ v, VectorBody.scope.Values v ∧
      (∃ terms, scaled.terms = .ok terms ∧
        (∀ t ∈ terms, ∃ bound, target.checkTerm scope t = .ok bound) ∧
        scaled.blockValue? v = some (pair 1 0) ∧
        sumBlocks? (.vector 2) (terms.map (Term.value? v)) = some (pair 0 0)) ∧
      ∃ terms, mixed.terms = .ok terms ∧
        (∀ t ∈ terms, ∃ bound, target.checkTerm scope t = .ok bound) ∧
        mixed.blockValue? v = none := by
  obtain ⟨terms, hterms, hpass, hvalue, hsum⟩ : ∃ terms, scaled.terms = .ok terms ∧
      (∀ t ∈ terms, ∃ bound, target.checkTerm scope t = .ok bound ∧ True) ∧
      scaled.blockValue? (scope.reading numbers) = some (pair 1 0) ∧
      sumBlocks? (.vector 2) (terms.map (Term.value? (scope.reading numbers))) =
        some (pair 0 0) := by
    decide +kernel
  obtain ⟨terms', hterms', hpass', hnone⟩ : ∃ terms, mixed.terms = .ok terms ∧
      (∀ t ∈ terms, ∃ bound, target.checkTerm scope t = .ok bound ∧ True) ∧
      mixed.blockValue? (scope.reading numbers) = none := by
    decide +kernel
  exact ⟨scope.reading numbers, TypeScope.values_reading scope numbers,
    ⟨terms, hterms, fun t ht => (hpass t ht).imp fun _ h => h.1, hvalue, hsum⟩,
    terms', hterms', fun t ht => (hpass' t ht).imp fun _ h => h.1, hnone⟩

end GraphTensor
