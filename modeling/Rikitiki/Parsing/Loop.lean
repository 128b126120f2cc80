import Rikitiki.Parsing.BufferedReader

/-!
# The read loop

What `onDataLoop` does without its fuel. `Progress` asks of a callback that, in the states an invariant
admits, going on after a call has consumed something; then every fuel above the length of the data gives
the same result, and `Loop` is that result as a derivation: one rule for each way out of the loop body,
with the calls made on the way. Invariants of a reader are proved by induction on `Loop`.
-/

namespace Rikitiki.BufferedReader

variable {σ : Type} {onBufferedData : BufferedReader σ → Str → Outcome (BufferedReader σ)}
  {after : Str} {Inv : BufferedReader σ → Prop}

@[simp] theorem keep_nil (reader : BufferedReader σ) : reader.keep [] = reader := by
  simp [keep]

theorem clear_of_buffer_nil {reader : BufferedReader σ} (h : reader.buffer = []) :
    reader.clear = reader := by
  cases reader
  simp_all [clear]

/-! ### What a pass yields -/

theorem passLength_eq_cantProcess {reader reader' : BufferedReader σ} {data : Str}
    (h : reader.passLength data = .cantProcess reader') :
    reader' = reader ∧ data.length < sizeSub reader.expectedSize reader.buffer.length := by
  simp only [passLength] at h
  split at h
  · cases h
  · rename_i hlt
    cases h
    exact ⟨rfl, Nat.lt_of_not_le hlt⟩

theorem passLength_eq_deliver {reader reader' : BufferedReader σ} {data rest : Str}
    (h : reader.passLength data = .deliver reader' rest) :
    let remaining := sizeSub reader.expectedSize reader.buffer.length
    remaining ≤ data.length ∧ rest = data.drop remaining ∧
      reader' = { reader with buffer := reader.buffer ++ data.take remaining } := by
  simp only [passLength] at h
  split at h
  · rename_i hle
    cases h
    exact ⟨hle, rfl, rfl⟩
  · cases h

theorem passLength_ne_handOver {reader : BufferedReader σ} {data : Str} :
    reader.passLength data ≠ .handOver := by
  simp only [passLength]
  split <;> simp

theorem pass_of_none {reader : BufferedReader σ} (hmode : reader.bufferMode = .none) (data : Str) :
    reader.pass data after = .handOver := by
  simp only [pass, hmode]

theorem pass_of_length {reader : BufferedReader σ} (hmode : reader.bufferMode = .length) (data : Str) :
    reader.pass data after = reader.passLength data := by
  simp only [pass, hmode]

theorem pass_of_no_line {reader : BufferedReader σ} (hmode : reader.bufferMode = .newline) {data : Str}
    (hline : lineLength (data ++ after) = none) :
    reader.pass data after = .cantProcess reader := by
  simp only [pass, hmode, hline]

theorem pass_of_line {reader : BufferedReader σ} (hmode : reader.bufferMode = .newline) {data : Str}
    {length : Nat} (hline : lineLength (data ++ after) = some length) :
    reader.pass data after =
      passLength { reader with expectedSize := reader.buffer.length + length } data := by
  simp only [pass, hmode, hline]

theorem pass_eq_handOver {reader : BufferedReader σ} {data : Str}
    (h : reader.pass data after = .handOver) : reader.bufferMode = .none := by
  rcases reader.bufferMode.eq_or with hmode | hmode | hmode
  · rw [pass_of_length hmode] at h
    exact absurd h passLength_ne_handOver
  · cases hline : lineLength (data ++ after) with
    | none =>
        rw [pass_of_no_line hmode hline] at h
        cases h
    | some length =>
        rw [pass_of_line hmode hline] at h
        exact absurd h passLength_ne_handOver
  · exact hmode

theorem pass_eq_cantProcess {reader reader' : BufferedReader σ} {data : Str}
    (h : reader.pass data after = .cantProcess reader') :
    (reader.bufferMode = .newline ∧
        reader' = { reader with expectedSize := reader'.expectedSize }) ∨
      (reader.bufferMode = .length ∧ reader' = reader ∧
        data.length < sizeSub reader.expectedSize reader.buffer.length) := by
  rcases reader.bufferMode.eq_or with hmode | hmode | hmode
  · rw [pass_of_length hmode] at h
    exact .inr ⟨hmode, passLength_eq_cantProcess h⟩
  · cases hline : lineLength (data ++ after) with
    | none =>
        rw [pass_of_no_line hmode hline] at h
        cases h
        exact .inl ⟨hmode, rfl⟩
    | some length =>
        rw [pass_of_line hmode hline] at h
        exact .inl ⟨hmode, by rw [(passLength_eq_cantProcess h).1]⟩
  · rw [pass_of_none hmode] at h
    cases h

/-- A delivered block is the carried buffer with the next bytes of the data. In newline mode the
expected size is then the length of the line, in length mode it is what it was. -/
theorem pass_eq_deliver {reader reader' : BufferedReader σ} {data rest : Str}
    (h : reader.pass data after = .deliver reader' rest) :
    (∃ length, reader.bufferMode = .newline ∧ lineLength (data ++ after) = some length ∧
        length ≤ data.length ∧ rest = data.drop length ∧
        reader' = { reader with
          expectedSize := reader.buffer.length + length
          buffer := reader.buffer ++ data.take length }) ∨
      (reader.bufferMode = .length ∧
        sizeSub reader.expectedSize reader.buffer.length ≤ data.length ∧
        rest = data.drop (sizeSub reader.expectedSize reader.buffer.length) ∧
        reader' = { reader with
          buffer := reader.buffer ++ data.take (sizeSub reader.expectedSize reader.buffer.length) }) := by
  rcases reader.bufferMode.eq_or with hmode | hmode | hmode
  · rw [pass_of_length hmode] at h
    exact .inr ⟨hmode, passLength_eq_deliver h⟩
  · cases hline : lineLength (data ++ after) with
    | none =>
        rw [pass_of_no_line hmode hline] at h
        cases h
    | some length =>
        rw [pass_of_line hmode hline] at h
        have hremaining : sizeSub (reader.buffer.length + length) reader.buffer.length = length := by
          rw [sizeSub_of_le (Nat.le_add_right _ _), Nat.add_sub_cancel_left]
        obtain ⟨hle, hrest, hreader⟩ := passLength_eq_deliver h
        simp only [hremaining] at hle hrest hreader
        exact .inl ⟨length, hmode, rfl, hle, hrest, hreader⟩
  · rw [pass_of_none hmode] at h
    cases h

theorem length_of_deliver {reader block : BufferedReader σ} {data rest : Str}
    (h : reader.pass data after = .deliver block rest) :
    block.buffer.length + rest.length = reader.buffer.length + data.length := by
  rcases pass_eq_deliver h with ⟨length, -, -, hle, rfl, rfl⟩ | ⟨-, hle, rfl, rfl⟩
  · simp only [List.length_append, List.length_take, List.length_drop]
    omega
  · simp only [List.length_append, List.length_take, List.length_drop]
    omega

/-! ### Progress -/

/-- In the states `Inv` admits, a call after which the loop goes on has consumed some of the data. -/
def Progress (onBufferedData : BufferedReader σ → Str → Outcome (BufferedReader σ)) (after : Str)
    (Inv : BufferedReader σ → Prop) : Prop :=
  ∀ {reader block next : BufferedReader σ} {data rest : Str}, Inv reader → data ≠ [] →
    reader.pass data after = .deliver block rest →
    onBufferedData block block.buffer = .returns false next →
    Inv next.clear ∧ rest.length < data.length

/-- How the loop ends and the calls it makes are the same with any fuel that is enough. -/
theorem fuel_irrelevant (hprogress : Progress onBufferedData after Inv) {reader : BufferedReader σ}
    {data : Str} {fuel fuel' : Nat} (hinv : Inv reader) (hfuel : data.length < fuel)
    (hfuel' : data.length < fuel') :
    onDataLoop onBufferedData after fuel reader data = onDataLoop onBufferedData after fuel' reader data ∧
      onDataCalls onBufferedData after fuel reader data = onDataCalls onBufferedData after fuel' reader data := by
  induction fuel generalizing fuel' reader data with
  | zero => omega
  | succ fuel ih =>
      obtain ⟨fuel', rfl⟩ : ∃ k, fuel' = k + 1 := ⟨fuel' - 1, by omega⟩
      by_cases hdata : data = []
      · simp [onDataLoop, onDataCalls, hdata]
      · simp only [onDataLoop, onDataCalls, if_neg hdata]
        cases hpass : reader.pass data after with
        | cantProcess reader' => exact ⟨rfl, rfl⟩
        | handOver => exact ⟨rfl, rfl⟩
        | deliver block rest =>
            cases hcall : onBufferedData block block.buffer with
            | returns value next =>
                cases value with
                | true => simp only [hcall, and_self]
                | false =>
                    obtain ⟨hnext, hlt⟩ := hprogress hinv hdata hpass hcall
                    obtain ⟨hloop, hcalls⟩ := ih hnext (show rest.length < fuel by omega)
                      (show rest.length < fuel' by omega)
                    simp only [hcall]
                    exact ⟨hloop, congrArg _ hcalls⟩
            | throws error next => simp only [hcall, and_self]
            | undefined => simp only [hcall, and_self]
            | running => simp only [hcall, and_self]

theorem onDataLoop_fuel (hprogress : Progress onBufferedData after Inv) {reader : BufferedReader σ}
    {data : Str} {fuel fuel' : Nat} (hinv : Inv reader) (hfuel : data.length < fuel)
    (hfuel' : data.length < fuel') :
    onDataLoop onBufferedData after fuel reader data
      = onDataLoop onBufferedData after fuel' reader data :=
  (fuel_irrelevant hprogress hinv hfuel hfuel').1

theorem onDataCalls_fuel (hprogress : Progress onBufferedData after Inv) {reader : BufferedReader σ}
    {data : Str} {fuel fuel' : Nat} (hinv : Inv reader) (hfuel : data.length < fuel)
    (hfuel' : data.length < fuel') :
    onDataCalls onBufferedData after fuel reader data
      = onDataCalls onBufferedData after fuel' reader data :=
  (fuel_irrelevant hprogress hinv hfuel hfuel').2

/-! ### The loop as a derivation -/

/-- The loop on some data: the calls it makes and how it ends. -/
inductive Loop (onBufferedData : BufferedReader σ → Str → Outcome (BufferedReader σ)) (after : Str) :
    BufferedReader σ → Str → List (BufferedReader σ × Str) → Outcome (BufferedReader σ) → Prop
  | idle (reader : BufferedReader σ) : Loop onBufferedData after reader [] [] (.returns false reader)
  | cantProcess {reader reader' : BufferedReader σ} {data : Str} (hdata : data ≠ [])
      (hpass : reader.pass data after = .cantProcess reader') :
      Loop onBufferedData after reader data [] (.returns false (reader'.keep data))
  | handOver {reader : BufferedReader σ} {data : Str} (hdata : data ≠ [])
      (hpass : reader.pass data after = .handOver) :
      Loop onBufferedData after reader data [(reader, data)] (onBufferedData reader data)
  | finishes {reader block next : BufferedReader σ} {data rest : Str} (hdata : data ≠ [])
      (hpass : reader.pass data after = .deliver block rest)
      (hcall : onBufferedData block block.buffer = .returns true next) :
      Loop onBufferedData after reader data [(block, block.buffer)] (.returns true next.clear)
  | fails {reader block : BufferedReader σ} {data rest : Str} {outcome : Outcome (BufferedReader σ)}
      (hdata : data ≠ []) (hpass : reader.pass data after = .deliver block rest)
      (hcall : onBufferedData block block.buffer = outcome)
      (hfails : ∀ value next, outcome ≠ .returns value next) :
      Loop onBufferedData after reader data [(block, block.buffer)] outcome
  | goesOn {reader block next : BufferedReader σ} {data rest : Str}
      {calls : List (BufferedReader σ × Str)} {outcome : Outcome (BufferedReader σ)} (hdata : data ≠ [])
      (hpass : reader.pass data after = .deliver block rest)
      (hcall : onBufferedData block block.buffer = .returns false next)
      (hrest : Loop onBufferedData after next.clear rest calls outcome) :
      Loop onBufferedData after reader data ((block, block.buffer) :: calls) outcome

/-- **Enough fuel runs the loop to its end.** -/
theorem loop_onDataLoop (hprogress : Progress onBufferedData after Inv) {reader : BufferedReader σ}
    {data : Str} {fuel : Nat} (hinv : Inv reader) (hfuel : data.length < fuel) :
    Loop onBufferedData after reader data (onDataCalls onBufferedData after fuel reader data)
      (onDataLoop onBufferedData after fuel reader data) := by
  induction fuel generalizing reader data with
  | zero => omega
  | succ fuel ih =>
      by_cases hdata : data = []
      · subst hdata
        simpa [onDataLoop, onDataCalls] using Loop.idle reader
      · simp only [onDataLoop, onDataCalls, if_neg hdata]
        cases hpass : reader.pass data after with
        | cantProcess reader' => exact .cantProcess hdata hpass
        | handOver => exact .handOver hdata hpass
        | deliver block rest =>
            cases hcall : onBufferedData block block.buffer with
            | returns value next =>
                cases value with
                | true => simpa only [hcall] using Loop.finishes hdata hpass hcall
                | false =>
                    obtain ⟨hnext, hlt⟩ := hprogress hinv hdata hpass hcall
                    simpa only [hcall] using Loop.goesOn hdata hpass hcall (ih hnext (by omega))
            | throws error next =>
                simp only [hcall]
                exact .fails hdata hpass hcall (by simp)
            | undefined =>
                simp only [hcall]
                exact .fails hdata hpass hcall (by simp)
            | running =>
                simp only [hcall]
                exact .fails hdata hpass hcall (by simp)

theorem loop_of_ne_running {reader : BufferedReader σ} {data : Str} {fuel : Nat}
    (h : onDataLoop onBufferedData after fuel reader data ≠ .running) :
    Loop onBufferedData after reader data (onDataCalls onBufferedData after fuel reader data)
      (onDataLoop onBufferedData after fuel reader data) := by
  induction fuel generalizing reader data with
  | zero => exact absurd rfl h
  | succ fuel ih =>
      by_cases hdata : data = []
      · subst hdata
        simpa [onDataLoop, onDataCalls] using Loop.idle reader
      · simp only [onDataLoop, onDataCalls, if_neg hdata] at h ⊢
        cases hpass : reader.pass data after with
        | cantProcess reader' => exact .cantProcess hdata hpass
        | handOver => exact .handOver hdata hpass
        | deliver block rest =>
            simp only [hpass] at h
            cases hcall : onBufferedData block block.buffer with
            | returns value next =>
                simp only [hcall] at h
                cases value with
                | true => simpa only [hcall] using Loop.finishes hdata hpass hcall
                | false => simpa only [hcall] using Loop.goesOn hdata hpass hcall (ih h)
            | throws error next =>
                simp only [hcall]
                exact .fails hdata hpass hcall (by simp)
            | undefined =>
                simp only [hcall]
                exact .fails hdata hpass hcall (by simp)
            | running =>
                simp only [hcall] at h
                exact absurd rfl h

/-! ### The passes of the loop -/

def onDataPasses (onBufferedData : BufferedReader σ → Str → Outcome (BufferedReader σ)) (after : Str) :
    Nat → BufferedReader σ → Str → List (BufferedReader σ × Str)
  | 0, _, _ => []
  | fuel + 1, reader, data =>
    if data = [] then []
    else
      (reader, data) ::
        match reader.pass data after with
        | .deliver block rest =>
          match onBufferedData block block.buffer with
          | .returns false next => onDataPasses onBufferedData after fuel next.clear rest
          | _ => []
        | _ => []

/-! ### Fields the callback does not look at -/

def mapDerived (g : σ → σ) (reader : BufferedReader σ) : BufferedReader σ :=
  { reader with derived := g reader.derived }

def Pass.mapDerived (g : σ → σ) : Pass σ → Pass σ
  | .cantProcess reader => .cantProcess (reader.mapDerived g)
  | .handOver => .handOver
  | .deliver reader rest => .deliver (reader.mapDerived g) rest

def outcomeMap (g : σ → σ) : Outcome (BufferedReader σ) → Outcome (BufferedReader σ)
  | .returns value reader => .returns value (reader.mapDerived g)
  | .throws error reader => .throws error (reader.mapDerived g)
  | .undefined => .undefined
  | .running => .running

theorem passLength_mapDerived (g : σ → σ) (reader : BufferedReader σ) (data : Str) :
    (reader.mapDerived g).passLength data = (reader.passLength data).mapDerived g := by
  by_cases hle : sizeSub reader.expectedSize reader.buffer.length ≤ data.length
  · have hpass : reader.passLength data = .deliver _ _ := if_pos hle
    rw [hpass]
    exact if_pos hle
  · have hpass : reader.passLength data = .cantProcess reader := if_neg hle
    rw [hpass]
    exact if_neg hle

theorem pass_mapDerived (g : σ → σ) (reader : BufferedReader σ) (data : Str) :
    (reader.mapDerived g).pass data after = (reader.pass data after).mapDerived g := by
  have hsame : (reader.mapDerived g).bufferMode = reader.bufferMode := rfl
  rcases reader.bufferMode.eq_or with hmode | hmode | hmode
  · rw [pass_of_length hmode, pass_of_length (hsame.trans hmode), passLength_mapDerived]
  · cases hline : lineLength (data ++ after) with
    | none =>
        rw [pass_of_no_line hmode hline, pass_of_no_line (hsame.trans hmode) hline]
        rfl
    | some length =>
        rw [pass_of_line hmode hline, pass_of_line (hsame.trans hmode) hline]
        exact passLength_mapDerived g { reader with expectedSize := reader.buffer.length + length } data
  · rw [pass_of_none hmode, pass_of_none (hsame.trans hmode)]
    rfl

theorem derived_of_deliver {reader reader' : BufferedReader σ} {data rest : Str}
    (h : reader.pass data after = .deliver reader' rest) : reader'.derived = reader.derived := by
  rcases pass_eq_deliver h with ⟨length, -, -, -, -, rfl⟩ | ⟨-, -, -, rfl⟩
  · rfl
  · rfl

/-- **A change of fields that the callback does not look at** changes nothing else about a call. -/
theorem onDataLoop_mapDerived {g : σ → σ} {P : σ → Prop}
    (hcall : ∀ reader data, P reader.derived →
      onBufferedData (reader.mapDerived g) data = outcomeMap g (onBufferedData reader data))
    (hkeep : ∀ reader data next, P reader.derived →
      onBufferedData reader data = .returns false next → P next.derived)
    (fuel : Nat) {reader : BufferedReader σ} (hreader : P reader.derived) (data : Str) :
    onDataLoop onBufferedData after fuel (reader.mapDerived g) data
        = outcomeMap g (onDataLoop onBufferedData after fuel reader data) ∧
      (onDataCalls onBufferedData after fuel (reader.mapDerived g) data).map Prod.snd
        = (onDataCalls onBufferedData after fuel reader data).map Prod.snd := by
  induction fuel generalizing reader data with
  | zero => exact ⟨rfl, rfl⟩
  | succ fuel ih =>
      by_cases hdata : data = []
      · simp only [onDataLoop, onDataCalls, if_pos hdata]
        exact ⟨rfl, trivial⟩
      · simp only [onDataLoop, onDataCalls, if_neg hdata, pass_mapDerived]
        cases hpass : reader.pass data after with
        | cantProcess reader' => exact ⟨rfl, rfl⟩
        | handOver => exact ⟨hcall reader data hreader, rfl⟩
        | deliver block rest =>
            have hblock : P block.derived := by
              rw [derived_of_deliver hpass]
              exact hreader
            have hbuffer : (block.mapDerived g).buffer = block.buffer := rfl
            simp only [Pass.mapDerived, hbuffer, hcall block block.buffer hblock, List.map_cons]
            cases hreturn : onBufferedData block block.buffer with
            | returns value next =>
                cases value with
                | true => exact ⟨rfl, rfl⟩
                | false =>
                    have hnext : P next.clear.derived := hkeep block block.buffer next hblock hreturn
                    obtain ⟨hloop, hcalls⟩ := ih hnext rest
                    exact ⟨hloop, congrArg _ hcalls⟩
            | throws error next => exact ⟨rfl, rfl⟩
            | undefined => exact ⟨rfl, rfl⟩
            | running => exact ⟨rfl, rfl⟩

end Rikitiki.BufferedReader
