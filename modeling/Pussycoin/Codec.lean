import Mathlib.Data.List.Basic

/-! Readers and writers of token streams. A reader takes a value from the front of a
stream and fails where an unserializer throws. A writer and a reader round-trip on a
predicate when the reader gives back every value the predicate admits and leaves the rest
of the stream; a reader is canonical for a writer when every stream it accepts starts with
the writing of what it read. The rules below compose both properties through sequences,
counted lists and fields that are present only under a flag. -/
namespace Codec

variable {β α : Type}

abbrev Reader (β α : Type) := StateT (List β) Option α

/-- One token. -/
def readOne : Reader β β := fun stream =>
  match stream with
  | [] => none
  | b :: rest => some (b, rest)

/-- Exactly `n` tokens, or a failure on a shorter stream. -/
def readExactly (n : ℕ) : Reader β {l : List β // l.length = n} := fun stream =>
  if h : n ≤ stream.length then some (⟨stream.take n, by simp [h]⟩, stream.drop n) else none

/-- `count` values, one after another. -/
def readCount (read : Reader β α) : ℕ → Reader β (List α)
  | 0 => pure []
  | count + 1 => do
    let a ← read
    let rest ← readCount read count
    pure (a :: rest)

/-- A field read only when its flag is set, and `default` otherwise. -/
def readWhen (flag : Bool) (read : Reader β α) (default : α) : Reader β α :=
  if flag then read else pure default

/-- A field written only when it is present. -/
def writeWhen (present : α → Bool) (write : α → List β) (a : α) : List β :=
  if present a then write a else []

/-- An optional field read under a flag. -/
def readOption (flag : Bool) (read : Reader β α) : Reader β (Option α) :=
  readWhen flag (some <$> read) none

/-- An optional field written when it holds a value. -/
def writeOption (write : α → List β) : Option α → List β
  | some a => write a
  | none => []

def RoundTrips (write : α → List β) (read : Reader β α) (admits : α → Prop) : Prop :=
  ∀ a, admits a → ∀ rest, read.run (write a ++ rest) = some (a, rest)

def Canonical (write : α → List β) (read : Reader β α) : Prop :=
  ∀ stream a rest, read.run stream = some (a, rest) → write a ++ rest = stream

/-! ### Running readers -/

@[simp] theorem run_pure (a : α) (stream : List β) :
    (pure a : Reader β α).run stream = some (a, stream) := rfl

@[simp] theorem run_bind {γ : Type} (x : Reader β α) (f : α → Reader β γ) (stream : List β) :
    (x >>= f).run stream = (x.run stream).bind fun p => (f p.1).run p.2 := rfl

@[simp] theorem run_map {γ : Type} (f : α → γ) (x : Reader β α) (stream : List β) :
    (f <$> x).run stream = (x.run stream).map fun p => (f p.1, p.2) := by
  show (x.run stream).bind _ = _
  cases x.run stream <;> rfl

@[simp] theorem run_failure (stream : List β) : (failure : Reader β α).run stream = none := rfl

@[simp] theorem run_readOne_cons (b : β) (rest : List β) :
    (readOne : Reader β β).run (b :: rest) = some (b, rest) := rfl

@[simp] theorem run_readOne_nil : (readOne : Reader β β).run [] = none := rfl

theorem run_readExactly_append {n : ℕ} (l rest : List β) (length : l.length = n) :
    (readExactly n : Reader β _).run (l ++ rest) = some (⟨l, length⟩, rest) := by
  subst length
  simp [readExactly, StateT.run]

theorem run_readExactly_eq_some {n : ℕ} {stream rest : List β} {l : {l : List β // l.length = n}}
    (read : (readExactly n : Reader β _).run stream = some (l, rest)) : l.val ++ rest = stream := by
  dsimp only [readExactly, StateT.run] at read
  split at read
  · obtain ⟨rfl, rfl⟩ := Prod.mk.inj (Option.some.inj read)
    exact List.take_append_drop n stream
  · cases read

theorem readCount_length {read : Reader β α} :
    ∀ {count : ℕ} {stream rest : List β} {l : List α},
      (readCount read count).run stream = some (l, rest) → l.length = count
  | 0, stream, rest, l, reads => by
    simp only [readCount, run_pure, Option.some.injEq, Prod.mk.injEq] at reads
    rw [← reads.1]
    rfl
  | count + 1, stream, rest, l, reads => by
    simp only [readCount, run_bind, Option.bind_eq_some_iff, run_pure, Option.some.injEq] at reads
    obtain ⟨⟨a, middle⟩, -, ⟨as, rest'⟩, others, same⟩ := reads
    obtain ⟨rfl, rfl⟩ := Prod.mk.inj same
    simp [readCount_length others]

/-! ### Round trips -/

theorem readCount_roundTrips {write : α → List β} {read : Reader β α} {admits : α → Prop}
    (trip : RoundTrips write read admits) :
    ∀ (l : List α), (∀ a ∈ l, admits a) →
      ∀ rest, (readCount read l.length).run (l.flatMap write ++ rest) = some (l, rest)
  | [], _, rest => rfl
  | a :: l, admitted, rest => by
    have first := trip a (admitted a (List.mem_cons_self ..)) (l.flatMap write ++ rest)
    have others := readCount_roundTrips trip l (fun b mem => admitted b (List.mem_cons_of_mem a mem)) rest
    simp only [readCount, List.length_cons, List.flatMap_cons, List.append_assoc, run_bind, first,
      Option.bind_some, others, run_pure]

theorem readWhen_roundTrips {write : α → List β} {read : Reader β α} {admits : α → Prop}
    (trip : RoundTrips write read admits) (present : α → Bool) {flag : Bool} {default a : α}
    (flagged : flag = present a) (admitted : present a = true → admits a)
    (absent : present a = false → a = default) (rest : List β) :
    (readWhen flag read default).run (writeWhen present write a ++ rest) = some (a, rest) := by
  cases here : present a
  · have isDefault := absent here
    subst isDefault
    simp [readWhen, writeWhen, flagged, here]
  · simp only [readWhen, writeWhen, flagged, here, if_true]
    exact trip a (admitted here) rest

theorem readOption_roundTrips {write : α → List β} {read : Reader β α} {admits : α → Prop}
    (trip : RoundTrips write read admits) {flag : Bool} {a : Option α}
    (flagged : flag = a.isSome) (admitted : ∀ x, a = some x → admits x) (rest : List β) :
    (readOption flag read).run (writeOption write a ++ rest) = some (a, rest) := by
  cases a with
  | none => simp [readOption, readWhen, writeOption, flagged]
  | some x =>
    simp only [Option.isSome_some] at flagged
    simp [readOption, readWhen, writeOption, flagged, trip x (admitted x rfl) rest]

/-! ### Canonical readers -/

theorem readCount_canonical {write : α → List β} {read : Reader β α} (canon : Canonical write read) :
    ∀ count, Canonical (fun l => l.flatMap write) (readCount read count)
  | 0, stream, l, rest, reads => by
    simp only [readCount, run_pure, Option.some.injEq, Prod.mk.injEq] at reads
    obtain ⟨rfl, rfl⟩ := reads
    rfl
  | count + 1, stream, l, rest, reads => by
    simp only [readCount, run_bind, Option.bind_eq_some_iff, run_pure, Option.some.injEq] at reads
    obtain ⟨⟨a, middle⟩, first, ⟨as, rest'⟩, others, same⟩ := reads
    obtain ⟨rfl, rfl⟩ := Prod.mk.inj same
    dsimp only
    rw [List.flatMap_cons, List.append_assoc, readCount_canonical canon count middle as rest' others]
    exact canon stream a middle first

theorem readWhen_canonical {write : α → List β} {read : Reader β α} (canon : Canonical write read)
    (present : α → Bool) {flag : Bool} {default a : α} {stream rest : List β}
    (reads : (readWhen flag read default).run stream = some (a, rest)) (flagged : flag = present a) :
    writeWhen present write a ++ rest = stream := by
  cases flag with
  | false =>
    simp only [readWhen, Bool.false_eq_true, if_false, run_pure, Option.some.injEq, Prod.mk.injEq] at reads
    obtain ⟨rfl, rfl⟩ := reads
    simp [writeWhen, ← flagged]
  | true =>
    simp only [readWhen, if_true] at reads
    simp only [writeWhen, ← flagged, if_true]
    exact canon stream a rest reads

theorem readOption_canonical {write : α → List β} {read : Reader β α} (canon : Canonical write read)
    {flag : Bool} {a : Option α} {stream rest : List β}
    (reads : (readOption flag read).run stream = some (a, rest)) :
    writeOption write a ++ rest = stream := by
  cases flag with
  | false =>
    simp only [readOption, readWhen, Bool.false_eq_true, if_false, run_pure, Option.some.injEq,
      Prod.mk.injEq] at reads
    obtain ⟨rfl, rfl⟩ := reads
    rfl
  | true =>
    simp only [readOption, readWhen, if_true, run_map, Option.map_eq_some_iff] at reads
    obtain ⟨⟨x, rest'⟩, readsX, same⟩ := reads
    obtain ⟨rfl, rfl⟩ := Prod.mk.inj same
    exact canon stream x rest' readsX

end Codec
