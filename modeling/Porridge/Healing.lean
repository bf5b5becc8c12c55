import Porridge.Commit

/-! The ambient healing pass of a settle. -/
namespace Porridge

variable {α : Type}

/-- The entry was committed in this epoch and a store it viewed moved after it was planned. -/
def isStaleAmbient (s : State α) (o : SystemInvocation) (m : MemoEntry) : Bool :=
  m.settleEpoch == s.settleEpoch && (s.systems[o.system]?).any fun system =>
    system.phase != .settle &&
      system.viewFreshness.any fun t => m.plannedRevision < s.world.storeWatermark t

def healingVictims (s : State α) : List SystemInvocation :=
  (s.memo.entries.filter fun binding => isStaleAmbient s binding.1 binding.2).map Sigma.fst

/-- How often one settle may heal an invocation. -/
def healingLimit : Nat := 128

/-- Drop the memo entry of a victim and force its rows; past the limit this panics. -/
def healVictim (attempts : Dict SystemInvocation Nat) (s : State α) (o : SystemInvocation) :
    Option (Dict SystemInvocation Nat × State α) :=
  let n := Dict.getD attempts o 0 + 1
  if healingLimit < n then none
  else some (attempts.insert o n,
    { s with memo := s.memo.erase o, systems := forceReplanOf s.systems o })

def healStaleAmbient (attempts : Dict SystemInvocation Nat) (s : State α) :
    Option (Bool × Dict SystemInvocation Nat × State α) :=
  let victims := healingVictims s
  (victims.foldlM (fun r o => healVictim r.1 r.2 o) (attempts, s)).map fun r =>
    (!victims.isEmpty, r.1, r.2)

end Porridge
