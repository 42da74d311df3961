import PlcTypes.Error

/-! # Traces

    Reading a definition gives a result and, whether it succeeds or fails, a
    record of what happened on the way.  `Traced` is that pair; the events
    come in the order in which they happened, and those before a failure are
    kept. -/

namespace PlcTypes

/-- How much an event matters. -/
inductive Level where
  | trace
  | debug
  | info
  | warn
deriving DecidableEq, Repr

/-- The word for a level. -/
def Level.word : Level → String
  | .trace => "TRACE"
  | .debug => "DEBUG"
  | .info => "INFO"
  | .warn => "WARN"

/-- What can happen while a definition is read. -/
inductive Event where
  /-- A definition is begun; `within` are the names of the definitions that it
      is read for, outermost first. -/
  | begun (name : String) (within : List String)
  /-- A line before the version is passed over. -/
  | metadata (owner : String) (line : Nat)
  /-- The legacy file is taken because the usual one does not exist. -/
  | legacyTaken (usual legacy : String)
  /-- A field refers to the definition in a file. -/
  | references (field path : String)
  /-- A line between the members and the end of the definition is ignored. -/
  | ignored (owner : String) (line : Nat) (text : String)
  /-- The source ends without the line that ends the definition. -/
  | endMissing (owner : String)
  /-- A file has been given its normal form. -/
  | formatted (path : String)
deriving DecidableEq, Repr

namespace Event

/-- How much an event matters. -/
def level : Event → Level
  | begun .. | metadata .. => .trace
  | legacyTaken .. | references .. => .debug
  | formatted .. => .info
  | ignored .. | endMissing .. => .warn

/-- The wording of an event. -/
def message : Event → String
  | begun name _ => s!"parsing type '{name}'"
  | metadata owner line => s!"'{owner}': skipping metadata line {Decimal.ofNat line}"
  | legacyTaken usual legacy => s!"{usual} not found, using legacy {legacy}"
  | references field path => s!"'{field}' references {path}"
  | ignored owner line text =>
      s!"'{owner}': ignoring line {Decimal.ofNat line} after END_STRUCT: {text}"
  | endMissing owner => s!"'{owner}': missing END_TYPE"
  | formatted path => s!"{path}: formatted"

end Event

/-- A result with the events on the way to it. -/
structure Traced (α : Type) where
  events : List Event
  outcome : Except Error α

namespace Traced

variable {α β : Type}

/-- The result of one step handed to the next; a failure ends the sequence. -/
def bind (x : Traced α) (f : α → Traced β) : Traced β :=
  match x.outcome with
  | .ok a => ⟨x.events ++ (f a).events, (f a).outcome⟩
  | .error e => ⟨x.events, .error e⟩

instance : Monad Traced where
  pure a := ⟨[], .ok a⟩
  bind := bind

/-- A failure. -/
def fail (e : Error) : Traced α := ⟨[], .error e⟩

/-- An event. -/
def note (e : Event) : Traced Unit := ⟨[e], .ok ()⟩

/-- A result without events. -/
def lift (r : Except Error α) : Traced α := ⟨[], r⟩

/-! ## Laws -/

instance : LawfulMonad Traced := LawfulMonad.mk' Traced
  (by rintro α ⟨events, _ | a⟩ <;> simp [Functor.map, bind])
  (by intro α β a f; rfl)
  (by
    rintro α β γ ⟨events, _ | a⟩ f g
    · rfl
    · show bind ⟨events ++ (f a).events, (f a).outcome⟩ g
        = ⟨events ++ (bind (f a) g).events, (bind (f a) g).outcome⟩
      rcases f a with ⟨_, _ | _⟩ <;> simp [bind])

@[simp] theorem fail_bind (e : Error) (f : α → Traced β) : fail e >>= f = fail e := rfl

@[simp] theorem lift_ok (a : α) : lift (.ok a) = pure a := rfl

@[simp] theorem lift_error (e : Error) : lift (.error e : Except Error α) = fail e := rfl

end Traced

end PlcTypes
