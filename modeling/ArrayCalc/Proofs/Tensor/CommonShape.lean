import ArrayCalc.Proofs.Tensor.Broadcast

namespace ArrayCalc.Shape

theorem broadcastDim_of_ne_one {a b : Nat} (ha : a ≠ 1) (hb : b ≠ 1) :
    broadcastDim a b = if a = b then some a else none := by
  simp [broadcastDim, ha, hb]

theorem broadcastDim_comm (a b : Nat) : broadcastDim a b = broadcastDim b a := by
  grind [broadcastDim]

theorem broadcastDim_self (a : Nat) : broadcastDim a a = some a := by
  grind [broadcastDim]

/-- Sizes are ordered with one below all others, which have nothing in common: a common size is an upper bound. -/
theorem broadcastDim_assoc (a b c : Nat) :
    ((broadcastDim a b).bind fun d => broadcastDim d c) = (broadcastDim b c).bind fun d => broadcastDim a d := by
  by_cases ha : a = 1
  · subst a
    simp only [one_broadcastDim, Option.bind_some, Option.bind_fun_some]
  by_cases hb : b = 1
  · subst b
    simp only [one_broadcastDim, broadcastDim_one, Option.bind_some]
  by_cases hc : c = 1
  · subst c
    simp only [broadcastDim_one, Option.bind_some, Option.bind_fun_some]
  -- No size adapts to another one any more.
  rw [broadcastDim_of_ne_one ha hb, broadcastDim_of_ne_one hb hc]
  by_cases hab : a = b <;> by_cases hbc : b = c
  · subst hab hbc
    simp
  · subst hab
    simp [broadcastDim_of_ne_one ha hc, hbc]
  · subst hbc
    simp [broadcastDim_of_ne_one ha hb, hab]
  · simp [hab, hbc]

/-- The innermost axes and the other ones have their common sizes independently of each other. -/
theorem broadcastInner_cons_cons (a b : Nat) (as bs : Shape) :
    broadcastInner (a :: as) (b :: bs) = Option.map₂ List.cons (broadcastDim a b) (broadcastInner as bs) := by
  rw [broadcastInner]
  cases broadcastDim a b <;> cases broadcastInner as bs <;> rfl

theorem broadcastInner_comm (as bs : Shape) : broadcastInner as bs = broadcastInner bs as := by
  induction as generalizing bs with
  | nil => rw [broadcastInner_nil, broadcastInner]
  | cons a as ih =>
    cases bs with
    | nil => rw [broadcastInner_nil, broadcastInner]
    | cons b bs => rw [broadcastInner_cons_cons, broadcastInner_cons_cons, broadcastDim_comm, ih]

theorem broadcastInner_self (as : Shape) : broadcastInner as as = some as := by
  induction as with
  | nil => rfl
  | cons a as ih =>
    rw [broadcastInner_cons_cons, broadcastDim_self, ih]
    rfl

/-- What goes on with the innermost axes and with the other ones apart goes on with a whole shape. -/
theorem map₂_cons_bind {f : Nat → Option Nat} {g h : Shape → Option Shape}
    (hcons : ∀ d ds, h (d :: ds) = Option.map₂ List.cons (f d) (g ds)) (x : Option Nat) (y : Option Shape) :
    (Option.map₂ List.cons x y).bind h = Option.map₂ List.cons (x.bind f) (y.bind g) := by
  cases x with
  | none => rfl
  | some d => cases y with
    | none => simp
    | some ds => exact hcons d ds

theorem broadcastInner_assoc (as bs cs : Shape) :
    ((broadcastInner as bs).bind fun s => broadcastInner s cs) =
      (broadcastInner bs cs).bind fun s => broadcastInner as s := by
  -- The shape that ends first leaves the other axes to the two others.
  induction as generalizing bs cs with
  | nil => simp only [broadcastInner, Option.bind_some, Option.bind_fun_some]
  | cons a as ih =>
    cases bs with
    | nil => simp only [broadcastInner, Option.bind_some]
    | cons b bs => cases cs with
      | nil => simp only [broadcastInner_nil, Option.bind_some, Option.bind_fun_some]
      | cons c cs =>
        have hleft := map₂_cons_bind (h := fun s => broadcastInner s (c :: cs))
          fun d ds => broadcastInner_cons_cons d c ds cs
        have hright := map₂_cons_bind (h := fun s => broadcastInner (a :: as) s)
          fun d ds => broadcastInner_cons_cons a d as ds
        rw [broadcastInner_cons_cons, broadcastInner_cons_cons, hleft, hright, broadcastDim_assoc, ih]

section

variable (a b c : Shape)

theorem broadcast?_comm : a.broadcast? b = b.broadcast? a := by
  rw [broadcast?, broadcastInner_comm, broadcast?]

theorem broadcast?_self : a.broadcast? a = some a := by
  rw [broadcast?, broadcastInner_self, Option.map_some, List.reverse_reverse]

theorem broadcast?_nil : a.broadcast? [] = some a := by
  rw [broadcast?, List.reverse_nil, broadcastInner_nil, Option.map_some, List.reverse_reverse]

theorem broadcast?_assoc : ((a.broadcast? b).bind fun s => s.broadcast? c) = (b.broadcast? c).bind a.broadcast? := by
  have hassoc := congrArg (Option.map List.reverse) (broadcastInner_assoc a.reverse b.reverse c.reverse)
  simpa only [broadcast?, Option.bind_map, Option.map_bind, Function.comp_def, List.reverse_reverse] using hassoc

end

/-- A common shape has room for each of the two shapes already. -/
theorem broadcast?_of_broadcast?_eq {a b s : Shape} (h : a.broadcast? b = some s) :
    s.broadcast? a = some s ∧ s.broadcast? b = some s := by
  have habsorb {a b : Shape} (h : a.broadcast? b = some s) : s.broadcast? b = some s := by
    have hassoc := broadcast?_assoc a b b
    rwa [broadcast?_self, h, Option.bind_some, Option.bind_some, h] at hassoc
  exact ⟨habsorb (broadcast?_comm b a ▸ h), habsorb h⟩

/-- The common shape of two shapes, if there are such. -/
def merge (s t : Option Shape) : Option Shape :=
  s.bind fun a => t.bind fun b => a.broadcast? b

theorem merge_comm (s t : Option Shape) : merge s t = merge t s := by
  cases s <;> cases t <;> simp [merge, broadcast?_comm]

theorem merge_assoc (s t u : Option Shape) : merge (merge s t) u = merge s (merge t u) := by
  cases s with
  | none => rfl
  | some a => cases t with
    | none => rfl
    | some b => cases u with
      | none => simp [merge]
      | some c => exact broadcast?_assoc a b c

instance : Std.Commutative merge := ⟨merge_comm⟩

instance : Std.Associative merge := ⟨merge_assoc⟩

/-- The common shape of a list of shapes. -/
def common (shapes : List Shape) : Option Shape :=
  shapes.foldr (fun s t => merge (some s) t) (some [])

theorem merge_nil_left (s : Option Shape) : merge (some []) s = s := by
  cases s with
  | none => rfl
  | some a => exact (broadcast?_comm [] a).trans (broadcast?_nil a)

theorem common_append (ss ts : List Shape) : common (ss ++ ts) = merge (common ss) (common ts) := by
  induction ss with
  | nil => exact (merge_nil_left _).symm
  | cons s ss ih =>
    change merge (some s) (common (ss ++ ts)) = merge (merge (some s) (common ss)) (common ts)
    rw [ih, merge_assoc]

theorem common_perm {ss ts : List Shape} (h : ss.Perm ts) : common ss = common ts := by
  have hmap (l : List Shape) : common l = (l.map some).foldr merge (some []) := by
    rw [common, List.foldr_map]
  rw [hmap, hmap]
  exact (h.map some).foldr_op_eq

end ArrayCalc.Shape
