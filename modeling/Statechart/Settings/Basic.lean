namespace Statechart

structure Settings where
  -- Whether dispatch tables are wanted, and not the machine itself.
  optimize : Bool := true
  denyWarnings : Bool := false
  deriving DecidableEq

-- The settings that a text stands for, if it stands for any.
abbrev Settings.Format := String → Option Settings

end Statechart
