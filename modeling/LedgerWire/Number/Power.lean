/-!
# Powers

A power of a natural number or an integer is the one of the core library, whatever else is imported:
what is written in the same way in a program and in a proof about it is the same power.
-/

attribute [instance (1100)] instPowNat
attribute [default_instance 10001] instPowNat
