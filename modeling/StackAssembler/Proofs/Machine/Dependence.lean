import StackAssembler.Proofs.Machine.Transition

set_option autoImplicit false
set_option relaxedAutoImplicit false

namespace StackAssembler

def Opcode.readsCalldata : Opcode → Bool
  | .calldataload | .calldatasize | .calldatacopy => true
  | _ => false

namespace Machine

variable {env env' : Env}

private theorem jump_congr (marks : ∀ i : Nat, env.marks[i]? = some true ↔ env'.marks[i]? = some true)
    (site : Site) (dest : Word) : site.jump env dest = site.jump env' dest := by
  funext s
  simp only [Site.jump, marks]

private theorem copyFrom_congr {source source' : Bytes}
    (windows : ∀ start count, source.window start count = source'.window start count)
    (site : Site) : site.copyFrom source = site.copyFrom source' := by
  simp only [Site.copyFrom, windows]

private theorem pushOperand_congr
    (windows : ∀ start count, env.code.window start count = env'.code.window start count)
    (site : Site) (width : Nat) : site.pushOperand env width = site.pushOperand env' width := by
  simp only [Site.pushOperand, windows]

/-- All that instructions use of the code is its windows, its landings and its length, and the
calldata is left to those that read it. -/
theorem exec_congr {site : Site}
    (calldata : site.op.readsCalldata = true → env.calldata = env'.calldata)
    (size : site.op = .codesize → env.code.size = env'.code.size)
    (windows : ∀ start count, env.code.window start count = env'.code.window start count)
    (marks : ∀ i : Nat, env.marks[i]? = some true ↔ env'.marks[i]? = some true) :
    exec env site = exec env' site := by
  obtain ⟨op, pc⟩ := site
  cases op
  case codesize => simp only [exec, size rfl]
  case jump | jumpi => simp only [exec, jump_congr marks]
  case codecopy => simp only [exec, copyFrom_congr windows]
  case push i => simp only [exec, pushOperand_congr windows]
  case calldataload | calldatasize | calldatacopy => simp only [exec, calldata rfl]
  all_goals rfl

theorem run_congr (same : ∀ s, Visited env s → step env s = step env' s) {s : State}
    (visited : Visited env s) (steps : Nat) : run env steps s = run env' steps s := by
  induction steps generalizing s with
  | zero => rfl
  | succ steps ih =>
      rw [run, run, ← same s visited]
      cases stepped : step env s with
      | ok _ next => exact ih (visited.step stepped)
      | error exit final => rfl

end Machine

end StackAssembler
