import LoopBounds.IndexFun.Inline
import LoopBounds.Proofs.Context

/-!
# Expressions without calls

Inlining visits all sub-expressions and replaces calls only, so an expression without calls is
left as it stands, and nothing is stored.
-/

namespace LoopBounds

namespace Attempt

variable {α β : Type} {ctx : Context} {e : ExprId}

/-- Every sub-expression visited so far was left as it stands. -/
def Unchanged (memo : Rewritten) : Prop := ∀ (e r : ExprId), memo[e]? = some r → r = e

/-- The traversal gives `x` and leaves the context and the sub-expressions as they stand. -/
def Keeps (m : StateT Rewritten Attempt α) (ctx : Context) (x : α) : Prop :=
  ∀ memo, Unchanged memo → ∃ memo', Unchanged memo' ∧
    (m.run memo).run.run ctx = (.ok (x, memo'), ctx)

variable {m : StateT Rewritten Attempt α} {f : α → StateT Rewritten Attempt β} {x : α} {y : β}

theorem Keeps.pure (x : α) (ctx : Context) :
    Keeps (pure x : StateT Rewritten Attempt α) ctx x :=
  fun memo hmemo => ⟨memo, hmemo, rfl⟩

theorem Keeps.bind (hm : Keeps m ctx x) (hf : Keeps (f x) ctx y) : Keeps (m >>= f) ctx y := by
  intro memo hmemo
  obtain ⟨memo₁, hmemo₁, hrun₁⟩ := hm memo hmemo
  obtain ⟨memo₂, hmemo₂, hrun₂⟩ := hf memo₁ hmemo₁
  refine ⟨memo₂, hmemo₂, ?_⟩
  rw [StateT.run_bind, ExceptT.run_bind, StateT.run_bind, hrun₁]
  exact hrun₂

theorem Keeps.mapM {f : α → StateT Rewritten Attempt β} {g : α → β} {xs : List α}
    (h : ∀ x ∈ xs, Keeps (f x) ctx (g x)) : Keeps (xs.mapM f) ctx (xs.map g) := by
  induction xs with
  | nil => exact .pure [] ctx
  | cons x xs ih =>
      rw [List.mapM_cons]
      refine (h x List.mem_cons_self).bind (.bind (ih fun z hz => h z ?_) (.pure _ ctx))
      exact List.mem_cons_of_mem _ hz

theorem Keeps.lift {b : Attempt α} (h : b.run.run ctx = (.ok x, ctx)) :
    Keeps (liftM b : StateT Rewritten Attempt α) ctx x := by
  refine fun memo hmemo => ⟨memo, hmemo, ?_⟩
  change ((b >>= fun x => Pure.pure (x, memo) : Attempt (α × Rewritten)).run.run ctx) = _
  rw [ExceptT.run_bind, StateT.run_bind, h]
  rfl

theorem Keeps.insert (ctx : Context) (e : ExprId) :
    Keeps (modify (·.insert e e) : StateT Rewritten Attempt PUnit) ctx ⟨⟩ := by
  refine fun memo hmemo => ⟨memo.insert e e, fun c r hc => ?_, rfl⟩
  rcases Handle.getElem?_insert_eq_some.1 hc with ⟨rfl, rfl⟩ | ⟨-, hc⟩
  exacts [rfl, hmemo c r hc]

theorem rewriteStep_keeps {visit : ExprId → Attempt (Option ExprId)}
    (hvisit : ∀ c, ctx.Over .callFree c → (visit c).run.run ctx = (.ok none, ctx)) {e : ExprId}
    (he : ctx.Over .callFree e) : Keeps (rewriteStep visit e) ctx e := by
  intro memo hmemo
  rw [rewriteStep, StateT.run_bind, StateT.run_get, pure_bind]
  dsimp only
  split
  · next done hdone =>
    exact ⟨memo, hmemo, by rw [hmemo e done hdone]; rfl⟩
  · refine (?_ : Keeps _ ctx e) memo hmemo
    refine .bind (x := ctx) (.lift rfl) (.bind (x := (ctx.node e).children) ?_ ?_)
    · have hoperands : Keeps ((ctx.node e).children.attach.mapM fun c => rewriteStep visit c.1) ctx
          ((ctx.node e).children.attach.map Subtype.val) :=
        .mapM fun c _ => rewriteStep_keeps hvisit (he.child c.2)
      rwa [List.attach_map_subtype_val] at hoperands
    · rw [if_pos rfl]
      exact .bind (.pure e ctx) (.bind (.lift (hvisit e he)) (.bind (.insert ctx e) (.pure e ctx)))
termination_by e.index
decreasing_by exact Context.child_lt _ c.2

theorem rewrite_eq {visit : ExprId → Attempt (Option ExprId)}
    (hvisit : ∀ c, ctx.Over .callFree c → (visit c).run.run ctx = (.ok none, ctx))
    (he : ctx.Over .callFree e) : (rewrite visit e).run.run ctx = (.ok e, ctx) := by
  obtain ⟨memo, -, hrun⟩ := rewriteStep_keeps hvisit he {} (by simp [Unchanged])
  rw [rewrite, StateT.run'_eq, ExceptT.run_map, StateT.run_map, hrun]
  rfl

theorem inlineWithin_eq (onlySimple : Bool) (depth : Nat) (he : ctx.Over .callFree e) :
    (inlineWithin onlySimple depth e).run.run ctx = (.ok e, ctx) := by
  cases depth with
  | zero => rfl
  | succ depth =>
      rw [inlineWithin]
      refine rewrite_eq (fun c hc => ?_) he
      rw [ExceptT.run_bind, StateT.run_bind]
      refine Eq.trans (b := StateT.run (ExceptT.run _) ctx) rfl ?_
      split
      · next f args dims hn => exact absurd hn (hc.mem f args dims)
      · rfl

/-- An expression without calls is inlined already. -/
theorem inline_eq (onlySimple : Bool) (he : ctx.Over .callFree e) :
    (inline onlySimple e).run.run ctx = (.ok e, ctx) := by
  rw [inline, ExceptT.run_bind, StateT.run_bind]
  exact inlineWithin_eq onlySimple ctx.callDepth he

end Attempt

end LoopBounds
