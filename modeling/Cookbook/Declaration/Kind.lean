import Cookbook.Text.Basic

/-!
The words a resource declaration uses for its guards and its notifications.
-/

namespace Cookbook

/-- Which way a guard decides: it allows the action, or it forbids it. -/
inductive GuardKind where
  | onlyIf | notIf
deriving DecidableEq

def GuardKind.word : GuardKind → Text
  | onlyIf => "only_if"
  | notIf => "not_if"

/-- When a notified action runs: right after the resource that notifies, or at the end. -/
inductive Timing where
  | immediately | delayed
deriving DecidableEq

def Timing.word : Timing → Text
  | immediately => "immediately"
  | delayed => "delayed"

/-- Which end of a notification declares it: the resource that changes, or the one that reacts. -/
inductive Direction where
  | notifies | subscribes
deriving DecidableEq

def Direction.word : Direction → Text
  | notifies => "notifies"
  | subscribes => "subscribes"

end Cookbook
