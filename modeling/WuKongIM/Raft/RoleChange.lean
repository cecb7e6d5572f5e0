import WuKongIM.Lib.Membership
import WuKongIM.Raft.Types

/-! How a raft group changes the configuration of a member when the leader hands over or takes a
learner in. -/
namespace WuKongIM.Raft
open Lib

/-- A learner becomes a replica, and the leader if it comes in the leader's place. The term
stays. -/
def learnTo (cfg : Config) (learnerId : Nat) : Option Config :=
  if learnerId ≠ cfg.migrateTo then none
  else
    let replicas := if cfg.migrateTo ∈ cfg.replicas then cfg.replicas else cfg.replicas ++ [cfg.migrateTo]
    some { cfg with
      learners := cfg.learners.erase learnerId
      replicas := if cfg.migrateFrom ≠ cfg.migrateTo then replicas.erase cfg.migrateFrom else replicas
      leader := if cfg.migrateFrom = cfg.leader then cfg.migrateTo else cfg.leader
      migrateFrom := 0
      migrateTo := 0 }

/-- A replica becomes the leader, in the next term. The learners stay. -/
def followerToLeader (cfg : Config) (followerId : Nat) : Option Config :=
  if followerId ∉ cfg.replicas then none
  else some { cfg with leader := followerId, term := succ32 cfg.term, migrateFrom := 0, migrateTo := 0 }

/-- `handleRoleChangeReq`: the configuration that is to be saved. Other requests are not known. -/
def roleChange (cfg : Config) (type : EventType) (member : Nat) : Option Config :=
  match type with
  | .learnerToLeaderReq => learnTo cfg member
  | .learnerToFollowerReq => learnTo cfg member
  | .followerToLeaderReq => followerToLeader cfg member
  | _ => none

def Config.membership (cfg : Config) : Membership Nat where
  leader := cfg.leader
  replicas := cfg.replicas
  learners := cfg.learners
  migrateFrom := cfg.migrateFrom
  migrateTo := cfg.migrateTo

variable {cfg cfg' : Config} {member : Nat}

theorem learnTo_eq_some (h : learnTo cfg member = some cfg') :
    member = cfg.migrateTo ∧ cfg'.membership = cfg.membership.promote 0 ∧ cfg'.term = cfg.term := by
  rw [learnTo] at h
  split at h
  · cases h
  rename_i hmember
  cases h
  have hmember := not_not.mp hmember
  refine ⟨hmember, ?_, rfl⟩
  rw [hmember]
  rfl

theorem followerToLeader_eq_some (h : followerToLeader cfg member = some cfg') :
    member ∈ cfg.replicas ∧ cfg'.membership = cfg.membership.settle 0 member ∧ cfg'.term = succ32 cfg.term := by
  rw [followerToLeader] at h
  split at h
  · cases h
  rename_i hmember
  cases h
  exact ⟨not_not.mp hmember, rfl, rfl⟩

end WuKongIM.Raft
