import LoopBounds.Inference.Masks
import LoopBounds.Proofs.NestHistory

/-!
# Masks and reachability

A pass over the masks looks at every relation once, and yet it gives each axis the bits of all
that it is made from, or of all that is made from it, however many relations lie between.  This
rests on the order of the relations.  In the order of a pass no relation writes an axis that
it or an earlier one has read.
-/

namespace LoopBounds

/-- The axis that a relation pins. -/
def AxisRelation.pins : AxisRelation → List AxisId
  | .singleton a => [a]
  | .reshape _ | .rebase .. => []

namespace LoopNest

/-- A relation of the nest makes `b` from `a`. -/
def Makes (nest : LoopNest) (a b : AxisId) : Prop :=
  ∃ r ∈ nest.relations, a ∈ r.consumed ∧ b ∈ r.made

/-- The axis and all axes that are made from it, over any number of relations. -/
def descendants (nest : LoopNest) (a : AxisId) : Set AxisId :=
  {b | Relation.ReflTransGen nest.Makes a b}

/-- The axis and all axes that it is made from, over any number of relations. -/
def ancestors (nest : LoopNest) (a : AxisId) : Set AxisId :=
  {b | Relation.ReflTransGen nest.Makes b a}

def pinned (nest : LoopNest) : Set AxisId := {a | .singleton a ∈ nest.relations}

end LoopNest

namespace Sweep

variable {masks : Masks} {a c : AxisId} {bits m n : UInt32} {o : Option Nat} {as : List AxisId}

/-! ## Marks

What is said of the masks is said of marks.  An axis carries the mark `none` if it has a mask,
and the mark `some i` if it has one with bit `i`.  The two spread by the same rule. -/

/-- A mask carries a mark. -/
def Bears (m : UInt32) : Option Nat → Prop
  | none => True
  | some i => m.toBitVec.getLsbD i = true

/-- An axis carries a mark. -/
def Marked (masks : Masks) (o : Option Nat) (a : AxisId) : Prop :=
  ∃ m, masks[a]? = some m ∧ Bears m o

@[simp] theorem bears_none (m : UInt32) : Bears m none := trivial

@[simp] theorem bears_zero : Bears 0 o ↔ o = none := by
  cases o <;> simp [Bears]

@[simp] theorem bears_or : Bears (m ||| n) o ↔ Bears m o ∨ Bears n o := by
  cases o <;> simp [Bears]

theorem marked_none : Marked masks none a ↔ a ∈ masks := by
  simp [Marked, Std.TreeMap.getElem?_eq_some_iff]

theorem marked_some {i : Nat} :
    Marked masks (some i) a ↔ (maskOf masks a).toBitVec.getLsbD i = true := by
  rw [Marked, maskOf]
  cases masks[a]? <;> simp [Bears]

/-- The masks with some bits joined to one axis after the other. -/
def joinAll (as : List AxisId) (bits : UInt32) (masks : Masks) : Masks :=
  as.foldl (fun masks a => masks.insert a (maskOf masks a ||| bits)) masks

/-- The bits of all the axes together. -/
def bitsOf (masks : Masks) (as : List AxisId) : UInt32 :=
  as.foldr (fun a bits => maskOf masks a ||| bits) 0

/-- The masks after the bits of `src` have gone to `dst`, if any of `src` has a mask. -/
def spread (src dst : List AxisId) (masks : Masks) : Masks :=
  if src.any masks.contains then joinAll dst (bitsOf masks src) masks else masks

theorem marked_insert : Marked (masks.insert a (maskOf masks a ||| bits)) o c ↔
    Marked masks o c ∨ c = a ∧ Bears bits o := by
  simp only [Marked, Handle.getElem?_insert_eq_some]
  by_cases hc : c = a
  · subst hc
    rw [maskOf]
    cases masks[c]? with
    | none => cases o <;> simp
    | some m => simp
  · simp [hc]

theorem marked_joinAll : Marked (joinAll as bits masks) o c ↔
    Marked masks o c ∨ c ∈ as ∧ Bears bits o := by
  induction as generalizing masks with
  | nil => simp [joinAll]
  | cons a as ih =>
      rw [joinAll, List.foldl_cons]
      change Marked (joinAll as bits _) o c ↔ _
      rw [ih, marked_insert, List.mem_cons, or_and_right, or_assoc]

theorem bears_bitsOf {i : Nat} :
    Bears (bitsOf masks as) (some i) ↔ ∃ a ∈ as, Marked masks (some i) a := by
  induction as with
  | nil => simp [bitsOf]
  | cons a as ih =>
      rw [bitsOf, List.foldr_cons]
      change Bears (_ ||| bitsOf masks as) _ ↔ _
      rw [bears_or, ih, List.exists_mem_cons_iff, marked_some, Bears]

/-- A mark spreads to all of `dst` if one of `src` carries it. -/
theorem marked_spread {src dst : List AxisId} : Marked (spread src dst masks) o c ↔
    Marked masks o c ∨ c ∈ dst ∧ ∃ a ∈ src, Marked masks o a := by
  rw [spread]
  by_cases hsome : ∃ a ∈ src, a ∈ masks
  · have hany : src.any masks.contains = true := by simpa using hsome
    rw [if_pos hany, marked_joinAll]
    cases o with
    | none => simp [marked_none, hsome]
    | some i => rw [bears_bitsOf]
  · have hany : ¬ src.any masks.contains = true := by simpa using hsome
    rw [if_neg hany]
    refine (or_iff_left ?_).symm
    rintro ⟨-, a, ha, m, hm, -⟩
    exact hsome ⟨a, ha, Std.TreeMap.mem_iff_isSome_getElem?.2 (hm ▸ rfl)⟩

/-! ## Directions -/

/-- The direction of a pass: what it reads of a relation, what it writes, and which axes it
gives an empty mask. -/
structure Direction where
  reads : AxisRelation → List AxisId
  writes : AxisRelation → List AxisId
  pins : AxisRelation → List AxisId

namespace Direction

def up : Direction := ⟨AxisRelation.made, AxisRelation.consumed, fun _ => []⟩

def down : Direction := ⟨AxisRelation.consumed, AxisRelation.made, AxisRelation.pins⟩

variable (d : Direction) {r : AxisRelation} {rs : List AxisRelation}

/-- What the pass does at a relation. -/
def step (masks : Masks) (r : AxisRelation) : Masks :=
  joinAll (d.pins r) 0 (spread (d.reads r) (d.writes r) masks)

/-- The pass takes bits from `a` to `b` at one of the relations. -/
def Carries (rs : List AxisRelation) (a b : AxisId) : Prop :=
  ∃ r ∈ rs, a ∈ d.reads r ∧ b ∈ d.writes r

/-- No relation writes or pins what it or an earlier one reads. -/
def Ordered : List AxisRelation → Prop
  | [] => True
  | r :: rs => (∀ q ∈ r :: rs, ∀ a ∈ d.writes q ++ d.pins q, a ∉ d.reads r) ∧ Ordered rs

variable {d}

theorem marked_step : Marked (d.step masks r) o c ↔ Marked masks o c ∨
    (c ∈ d.writes r ∧ ∃ a ∈ d.reads r, Marked masks o a) ∨ c ∈ d.pins r ∧ o = none := by
  rw [step, marked_joinAll, marked_spread, bears_zero, or_assoc]

/-- What is not read at the first relation goes on from the other relations only, and what is
read goes on from what that relation writes. -/
theorem carries_cons (hordered : d.Ordered (r :: rs)) {b : AxisId} :
    Relation.ReflTransGen (d.Carries (r :: rs)) b c ↔ Relation.ReflTransGen (d.Carries rs) b c ∨
      b ∈ d.reads r ∧ ∃ a ∈ d.writes r, Relation.ReflTransGen (d.Carries rs) a c := by
  have hlift : ∀ {x y}, Relation.ReflTransGen (d.Carries rs) x y →
      Relation.ReflTransGen (d.Carries (r :: rs)) x y := fun h =>
    h.lift id fun _ _ ⟨q, hq, h⟩ => ⟨q, List.mem_cons_of_mem _ hq, h⟩
  constructor
  · intro h
    induction h using Relation.ReflTransGen.head_induction_on with
    | refl => exact .inl .refl
    | @head b a hba _ ih =>
        obtain ⟨q, hq, hb, ha⟩ := hba
        have hrest : Relation.ReflTransGen (d.Carries rs) a c :=
          ih.resolve_right fun h => hordered.1 q hq a (List.mem_append_left _ ha) h.1
        rcases List.mem_cons.1 hq with rfl | hq
        · exact .inr ⟨hb, a, ha, hrest⟩
        · exact .inl (hrest.head ⟨q, hq, hb, ha⟩)
  · rintro (h | ⟨hb, a, ha, h⟩)
    · exact hlift h
    · exact (hlift h).head ⟨r, List.mem_cons_self, hb, ha⟩

/-- After a pass over relations in order an axis carries the marks of all axes from which the
pass takes bits to it, over any number of relations. -/
theorem marked_foldl (hordered : d.Ordered rs) : Marked (rs.foldl d.step masks) o c ↔
    ∃ b, Relation.ReflTransGen (d.Carries rs) b c ∧
      (Marked masks o b ∨ o = none ∧ ∃ r ∈ rs, b ∈ d.pins r) := by
  induction rs generalizing masks with
  | nil =>
      have hnone : ∀ {b}, Relation.ReflTransGen (d.Carries []) b c ↔ b = c := by
        intro b
        constructor
        · intro h
          induction h with
          | refl => rfl
          | tail _ h _ => obtain ⟨q, hq, -⟩ := h; cases hq
        · rintro rfl
          exact .refl
      simp [hnone]
  | cons r rs ih =>
      have hpin : ∀ {q b}, q ∈ r :: rs → b ∈ d.pins q → b ∉ d.reads r :=
        fun hq hb => hordered.1 _ hq _ (List.mem_append_right _ hb)
      rw [List.foldl_cons, ih hordered.2]
      constructor
      · rintro ⟨b, hbc, hb⟩
        have hrest := (carries_cons hordered).2 (.inl hbc)
        rcases hb with hb | ⟨rfl, q, hq, hb⟩
        · rcases marked_step.1 hb with hold | ⟨hwritten, a, ha, hmark⟩ | ⟨hpinned, ho⟩
          · exact ⟨b, hrest, .inl hold⟩
          · exact ⟨a, (carries_cons hordered).2 (.inr ⟨ha, b, hwritten, hbc⟩), .inl hmark⟩
          · exact ⟨b, hrest, .inr ⟨ho, r, List.mem_cons_self, hpinned⟩⟩
        · exact ⟨b, hrest, .inr ⟨rfl, q, List.mem_cons_of_mem _ hq, hb⟩⟩
      · rintro ⟨b, hbc, hb⟩
        rcases (carries_cons hordered).1 hbc with hrest | ⟨hread, a, ha, hrest⟩
        · refine ⟨b, hrest, ?_⟩
          rcases hb with hb | ⟨rfl, q, hq, hb⟩
          · exact .inl (marked_step.2 (.inl hb))
          · rcases List.mem_cons.1 hq with rfl | hq
            · exact .inl (marked_step.2 (.inr (.inr ⟨hb, rfl⟩)))
            · exact .inr ⟨rfl, q, hq, hb⟩
        · rcases hb with hb | ⟨rfl, q, hq, hb⟩
          · exact ⟨a, hrest, .inl (marked_step.2 (.inr (.inl ⟨ha, b, hread, hb⟩)))⟩
          · exact absurd hread (hpin hq hb)

end Direction

/-! ## Runs -/

section Turns

variable {α β : Type} {allowMissing : Bool} {pass : Pass} {x : α} {y : β} {t t₁ t₂ : Masks}
  {s : Session} {mx : Sweep Masks α} {f : α → Sweep Masks β} {r : AxisRelation}

/-- The sweep leaves the session as it is, gives `x` and makes `t'` of the table, or it misses
an entry that it may not miss. -/
def Turns (allowMissing : Bool) (pass : Pass) (mx : Sweep Masks α) (t : Masks) (s : Session)
    (x : α) (t' : Masks) : Prop :=
  (mx.run.run t).run s = ((.ok x, t'), s) ∨ allowMissing = false ∧
    ∃ role name left, (mx.run.run t).run s = ((.error (.missingEntry pass role name), left), s)

theorem Turns.pure : Turns allowMissing pass (pure x) t s x t := .inl rfl

theorem Turns.bind (hm : Turns allowMissing pass mx t s x t₁)
    (hf : Turns allowMissing pass (f x) t₁ s y t₂) :
    Turns allowMissing pass (mx >>= f) t s y t₂ := by
  rcases hm with hm | ⟨hmay, role, name, left, hm⟩
  · have hrun : ((mx >>= f).run.run t).run s = ((f x).run.run t₁).run s := by
      simp only [ExceptT.run_bind, StateT.run_bind, hm]
      rfl
    rwa [Turns, hrun]
  · refine .inr ⟨hmay, role, name, left, ?_⟩
    simp only [ExceptT.run_bind, StateT.run_bind, hm]
    rfl

theorem Turns.table {f : Masks → Sweep Masks β} (hf : Turns allowMissing pass (f t) t s y t₂) :
    Turns allowMissing pass (Sweep.table >>= f) t s y t₂ :=
  .bind (.inl rfl) hf

theorem joinMask_turns :
    Turns allowMissing pass (joinMask a bits) t s () (t.insert a (maskOf t a ||| bits)) :=
  .inl rfl

theorem require_turns {role : Role} :
    Turns allowMissing pass (Sweep.require allowMissing pass role t a) t₁ s t[a]? t₁ := by
  cases allowMissing with
  | true => exact .inl rfl
  | false =>
      rw [Sweep.require, if_neg Bool.false_ne_true, Sweep.fetch]
      cases t[a]? with
      | some m => exact .pure
      | none => exact .inr ⟨rfl, role, Keyed.name s.ctx a, t₁, rfl⟩

theorem eitherMask_turns {key outer inner : AxisId} :
    Turns allowMissing pass (eitherMask allowMissing pass key outer inner) t s
      (if t.contains outer ∨ t.contains inner then some (maskOf t outer ||| maskOf t inner)
        else none) t := by
  refine .table ?_
  by_cases h : t.contains outer ∨ t.contains inner
  · rw [if_pos h, if_pos h]
    exact .pure
  · rw [if_neg h, if_neg h]
    cases allowMissing with
    | true => exact .pure
    | false => exact .inr ⟨rfl, _, _, _, rfl⟩

/-- The bits of the one axis that is read go to all that are written. -/
theorem requireJoin_turns {role : Role} {dst : List AxisId} {join : UInt32 → Sweep Masks Unit}
    (hjoin : ∀ bits, Turns allowMissing pass (join bits) t s () (joinAll dst bits t)) :
    Turns allowMissing pass (do
      let some bits ← Sweep.require allowMissing pass role (← Sweep.table) a | return ()
      join bits) t s () (spread [a] dst t) := by
  refine .table (.bind require_turns ?_)
  have hspread : spread [a] dst t = match t[a]? with
      | some bits => joinAll dst bits t
      | none => t := by
    cases ha : t[a]? with
    | some m => simp [spread, bitsOf, maskOf, ha, Std.TreeMap.contains_eq_isSome_getElem?]
    | none => simp [spread, ha, Std.TreeMap.contains_eq_isSome_getElem?]
  rw [hspread]
  cases t[a]? with
  | some bits => exact hjoin bits
  | none => exact .pure

/-- The bits of the two axes that are read go to the one that is written. -/
theorem eitherJoin_turns {key outer inner : AxisId} :
    Turns allowMissing pass (do
      let some bits ← eitherMask allowMissing pass key outer inner | return ()
      joinMask a bits) t s () (spread [outer, inner] [a] t) := by
  refine .bind eitherMask_turns ?_
  by_cases h : t.contains outer ∨ t.contains inner
  · have hspread : spread [outer, inner] [a] t =
        t.insert a (maskOf t a ||| (maskOf t outer ||| maskOf t inner)) := by
      rw [spread, if_pos (by simpa using h)]
      simp [joinAll, bitsOf]
    rw [if_pos h, hspread]
    exact joinMask_turns
  · have hspread : spread [outer, inner] [a] t = t := if_neg (by simpa using h)
    rw [if_neg h, hspread]
    exact .pure

theorem relationMasksUp_turns (t : Masks) (r : AxisRelation) : Turns allowMissing .masksUp
    (relationMasksUp allowMissing r) t s () (Direction.up.step t r) := by
  match r with
  | .reshape (.split parent outer inner _) => exact eitherJoin_turns
  | .reshape (.fuse outer inner fused) =>
      exact requireJoin_turns fun _ => .bind joinMask_turns joinMask_turns
  | .rebase parent rebased => exact requireJoin_turns fun _ => joinMask_turns
  | .singleton a => exact .pure

theorem relationMasksDown_turns (t : Masks) (r : AxisRelation) : Turns allowMissing .masksDown
    (relationMasksDown allowMissing r) t s () (Direction.down.step t r) := by
  match r with
  | .reshape (.split parent outer inner _) =>
      exact requireJoin_turns fun _ => .bind joinMask_turns joinMask_turns
  | .reshape (.fuse outer inner fused) => exact eitherJoin_turns
  | .rebase parent rebased => exact requireJoin_turns fun _ => joinMask_turns
  | .singleton a => exact joinMask_turns

theorem forM_turns {body : AxisRelation → Sweep Masks Unit} {step : Masks → AxisRelation → Masks}
    (hbody : ∀ t r, Turns allowMissing pass (body r) t s () (step t r)) (rs : List AxisRelation) :
    Turns allowMissing pass (rs.forM body) t s () (rs.foldl step t) := by
  induction rs generalizing t with
  | nil => exact .pure
  | cons r rs ih => exact .bind (hbody t r) ih

end Turns

end Sweep

/-! ## The order of the relations -/

namespace LoopNest

variable {ctx ctx' : Context} {nest nest' : LoopNest} {roots : List AxisId} {r : AxisRelation}

/-- No relation makes or pins an axis that it or an earlier one has consumed. -/
def OneWay (rs : List AxisRelation) : Prop :=
  rs.Pairwise (fun q r => ∀ a ∈ r.made ++ r.pins, a ∉ q.consumed) ∧
    ∀ r ∈ rs, ∀ a ∈ r.made ++ r.pins, a ∉ r.consumed

/-- What a step makes is new, and what it pins is a leaf. -/
theorem Arranged.not_consumed (h : Arranged ctx nest) (hstep : Step ctx nest r ctx' nest')
    {a : AxisId} (ha : a ∈ r.made ++ r.pins) {q : AxisRelation} (hq : q ∈ nest.relations) :
    a ∉ q.consumed := by
  intro hconsumed
  rcases List.mem_append.1 ha with ha | ha
  · exact h.not_mem_axes hstep ha (h.mem_axes_of_mem_consumed hq hconsumed)
  · cases r with
    | singleton b =>
        obtain rfl := List.mem_singleton.1 ha
        exact ((h.mem_leaves_iff a).1 (hstep.pinned a rfl)).2 q hq hconsumed
    | reshape _ => cases ha
    | rebase _ _ => cases ha

theorem OneWay.step (hway : OneWay nest.relations) (h : Arranged ctx nest)
    (hstep : Step ctx nest r ctx' nest') : OneWay nest'.relations := by
  have hown : ∀ a ∈ r.made ++ r.pins, a ∉ r.consumed := by
    intro a ha hconsumed
    rcases List.mem_append.1 ha with ha | ha
    · exact (List.nodup_append.1 (h.nodup_consumed_made hstep)).2.2 a hconsumed a ha rfl
    · cases r <;> cases ha <;> cases hconsumed
  rw [hstep.relations]
  constructor
  · refine List.pairwise_append.2 ⟨hway.1, List.pairwise_singleton .., ?_⟩
    intro q hq r' hr a ha
    obtain rfl := List.mem_singleton.1 hr
    exact h.not_consumed hstep ha hq
  · intro q hq
    rcases List.mem_append.1 hq with hq | hq
    · exact hway.2 q hq
    · rwa [List.mem_singleton.1 hq]

theorem History.oneWay (h : History roots ctx nest) : OneWay nest.relations := by
  induction h with
  | ofRoots name hdistinct hroots => exact ⟨.nil, nofun⟩
  | change _ _ ih => exact ih
  | call h call hstored ih =>
      rcases perform_cases _ call hstored with hsame | ⟨r, hstep⟩ | ⟨threads, hbound⟩
      · rwa [hsame]
      · exact ih.step h.arranged.1 hstep
      · rwa [hbound]

end LoopNest

namespace Sweep

open LoopNest

variable {nest : LoopNest} {rs : List AxisRelation}

theorem Direction.ordered_of_pairwise {d : Direction}
    (hpairs : rs.Pairwise fun q r => ∀ a ∈ d.writes r ++ d.pins r, a ∉ d.reads q)
    (hown : ∀ r ∈ rs, ∀ a ∈ d.writes r ++ d.pins r, a ∉ d.reads r) : d.Ordered rs := by
  induction rs with
  | nil => trivial
  | cons r rs ih =>
      obtain ⟨hfirst, hrest⟩ := List.pairwise_cons.1 hpairs
      refine ⟨fun q hq => ?_, ih hrest fun q hq => hown q (List.mem_cons_of_mem _ hq)⟩
      rcases List.mem_cons.1 hq with rfl | hq
      · exact hown q List.mem_cons_self
      · exact hfirst q hq

theorem ordered_down (h : OneWay rs) : Direction.down.Ordered rs :=
  Direction.ordered_of_pairwise h.1 h.2

/-- Going up, what a relation consumes is written after all later relations have been read. -/
theorem ordered_up (h : OneWay rs) : Direction.up.Ordered rs.reverse := by
  apply Direction.ordered_of_pairwise
  · rw [List.pairwise_reverse]
    apply h.1.imp
    intro q r hqr a ha hmade
    rw [Direction.up, List.append_nil] at ha
    exact hqr a (List.mem_append_left _ hmade) ha
  · intro r hr a ha hmade
    rw [Direction.up, List.append_nil] at ha
    exact h.2 r (List.mem_reverse.1 hr) a (List.mem_append_left _ hmade) ha

theorem mem_ancestors_iff {a b : AxisId} : b ∈ nest.ancestors a ↔
    Relation.ReflTransGen (Direction.down.Carries nest.relations) b a := Iff.rfl

theorem mem_descendants_iff {a b : AxisId} : b ∈ nest.descendants a ↔
    Relation.ReflTransGen (Direction.up.Carries nest.relations.reverse) b a := by
  have hswap : Direction.up.Carries nest.relations.reverse = Function.swap nest.Makes := by
    ext x y
    simp only [Direction.Carries, Direction.up, Function.swap, Makes, List.mem_reverse]
    exact exists_congr fun r => and_congr_right fun _ => and_comm
  rw [hswap, Relation.reflTransGen_swap]
  rfl

theorem mem_pinned_iff {a : AxisId} : a ∈ nest.pinned ↔ ∃ r ∈ nest.relations, a ∈ r.pins := by
  constructor
  · exact fun ha => ⟨_, ha, List.mem_singleton_self a⟩
  · rintro ⟨r, hr, ha⟩
    cases r with
    | singleton b =>
        obtain rfl := List.mem_singleton.1 ha
        exact hr
    | reshape _ => cases ha
    | rebase _ _ => cases ha

/-! ## What the passes collect -/

/-- Each axis has the bits of all masks in its `sources`, and it has a mask just if one of them
has one or is in `pinned`. -/
structure Collects (sources : AxisId → Set AxisId) (pinned : Set AxisId) (masks masks' : Masks) :
    Prop where
  entry : ∀ a, a ∈ masks' ↔ ∃ b ∈ sources a, b ∈ masks ∨ b ∈ pinned
  bit : ∀ a i, (maskOf masks' a).toBitVec.getLsbD i = true ↔
    ∃ b ∈ sources a, (maskOf masks b).toBitVec.getLsbD i = true

/-- A pass that leaves the session alone.  If masks may be missing it makes `masks'` of the
table, and if they may not then it makes the same or says which one it misses. -/
structure Passes (sweep : Bool → Sweep Masks Unit) (pass : Pass) (s : Session)
    (masks masks' : Masks) : Prop where
  lenient : ((sweep true).run.run masks).run s = ((.ok (), masks'), s)
  strict : ((sweep false).run.run masks).run s = ((.ok (), masks'), s) ∨
    ∃ role name left,
      ((sweep false).run.run masks).run s = ((.error (.missingEntry pass role name), left), s)

theorem passes_of_turns {sweep : Bool → Sweep Masks Unit} {pass : Pass} {s : Session}
    {masks masks' : Masks}
    (h : ∀ allowMissing, Turns allowMissing pass (sweep allowMissing) masks s () masks') :
    Passes sweep pass s masks masks' :=
  ⟨(h true).resolve_right nofun, (h false).imp_right And.right⟩

/-- In a pass over relations in order each axis collects from where bits are carried to it. -/
theorem Direction.collects {d : Direction} {sources : AxisId → Set AxisId} {pinned : Set AxisId}
    (hordered : d.Ordered rs)
    (hsources : ∀ {a b}, b ∈ sources a ↔ Relation.ReflTransGen (d.Carries rs) b a)
    (hpinned : ∀ {a}, a ∈ pinned ↔ ∃ r ∈ rs, a ∈ d.pins r) (masks : Masks) :
    Collects sources pinned masks (rs.foldl d.step masks) := by
  constructor
  case entry =>
    intro a
    rw [← marked_none, marked_foldl hordered]
    simp only [hsources, hpinned, marked_none, true_and]
  case bit =>
    intro a i
    rw [← marked_some, marked_foldl hordered]
    simp only [hsources, ← marked_some, reduceCtorEq, false_and, or_false]

/-- One pass over the relations, in the order in which they were made or in the reverse, joins
the masks of everything an axis is made from, or of everything made from it. -/
theorem masks_collect {roots : List AxisId} {ctx : Context} (h : History roots ctx nest)
    (masks : Masks) (s : Session) :
    (∃ masks', Passes (masksUp nest) .masksUp s masks masks' ∧
      Collects nest.descendants ∅ masks masks') ∧
    ∃ masks', Passes (masksDown nest) .masksDown s masks masks' ∧
      Collects nest.ancestors nest.pinned masks masks' := by
  constructor
  · refine ⟨_, passes_of_turns fun _ => forM_turns relationMasksUp_turns _, ?_⟩
    apply Direction.collects (ordered_up h.oneWay) mem_descendants_iff
    simp [Direction.up]
  · refine ⟨_, passes_of_turns fun _ => forM_turns relationMasksDown_turns _, ?_⟩
    exact Direction.collects (ordered_down h.oneWay) mem_ancestors_iff mem_pinned_iff masks

/-- Masks for the roots of the nest of two loops, and for one of the leaves. -/
def mixedMasks : Masks := (({} : Masks).insert ⟨0⟩ 1).insert ⟨1⟩ 2 |>.insert ⟨6⟩ 4

theorem masks_collect_mixed :
    (∃ masks', Passes (masksUp mixed.2) .masksUp ⟨mixed.1, {}⟩ mixedMasks masks' ∧
      Collects mixed.2.descendants ∅ mixedMasks masks') ∧
    ∃ masks', Passes (masksDown mixed.2) .masksDown ⟨mixed.1, {}⟩ mixedMasks masks' ∧
      Collects mixed.2.ancestors mixed.2.pinned mixedMasks masks' :=
  masks_collect (.performAll mixedCalls (.ofRoots "mixed" (by decide +kernel) (by decide +kernel))
    (by decide +kernel)) mixedMasks ⟨mixed.1, {}⟩

/-- Fusing lets the masks of both loops meet, and splitting again lets both parts have them. -/
example : (((masksDown mixed.2 false).run.run mixedMasks).run ⟨mixed.1, {}⟩).1.2.toList =
    [(⟨0⟩, 1), (⟨1⟩, 2), (⟨2⟩, 1), (⟨3⟩, 1), (⟨4⟩, 3), (⟨5⟩, 3), (⟨6⟩, 7), (⟨7⟩, 3)] := by
  decide +kernel

end Sweep

end LoopBounds
