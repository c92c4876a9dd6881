/-!
# Powers

Powers with a numeral for exponent are those of the core library, also in modules that import another
definition of them.
-/

attribute [default_instance 20000] instPowNat
