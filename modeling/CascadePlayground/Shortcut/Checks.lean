import CascadePlayground.Shortcut.System

/-! What is printed.

A line answers one `check`, and shows what was stored under the key when the request was
put, or something newer: of the commands of its own client it sees all that stand before
the `check` (`checks_right`). When every client comes to a `quit`, all come to their end, and
then every `check` of a key that its client has stored before has been answered, by one line
(`checks_answered`). -/
namespace CascadePlayground.Shortcut
open Program

/-! ### Histories -/

/-- The clients' puts are in the order of their commands. -/
def Ordered (puts : List Put) : Prop :=
  puts.Pairwise fun p q => p.id.client = q.id.client → q.id.command < p.id.command

/-- A put is no other than the one with its id. -/
theorem Ordered.eq_of_id {puts : List Put} (h : Ordered puts) {p q : Put} (hp : p ∈ puts) (hq : q ∈ puts)
    (hid : p.id = q.id) : p = q := by
  induction puts with
  | nil => cases hp
  | cons x puts ih =>
    have hx := List.pairwise_cons.mp h
    have hfresh : ∀ y ∈ puts, y.id ≠ x.id := fun y hy he => by
      have hlt := hx.1 y hy (congrArg Id.client he.symm)
      rw [he] at hlt
      exact Nat.lt_irrefl _ hlt
    rcases List.mem_cons.mp hp with hpx | hp'
    · rcases List.mem_cons.mp hq with hqx | hq'
      · rw [hpx, hqx]
      · exact absurd (hpx ▸ hid.symm) (hfresh q hq')
    · rcases List.mem_cons.mp hq with hqx | hq'
      · exact absurd (hqx ▸ hid) (hfresh p hp')
      · exact ih hx.2 hp' hq'

/-- What was put by the client before is there when the later put is. -/
theorem Ordered.mem_early {late early : List Put} (h : Ordered (late ++ early)) {p q : Put}
    (hp : p ∈ early) (hq : q ∈ late ++ early) (hclient : q.id.client = p.id.client)
    (hlt : q.id.command < p.id.command) : q ∈ early := by
  rcases List.mem_append.mp hq with hq | hq
  · have := (List.pairwise_append.mp h).2.2 q hq p hp hclient
    omega
  · exact hq

theorem current_cons (p : Put) (puts : List Put) (key : List Char) :
    current (p :: puts) key = if p.key = key then some p else current puts key := by
  unfold current
  rw [List.find?_cons]
  by_cases h : p.key = key <;> simp [h]

theorem mem_of_current {puts : List Put} {key : List Char} {q : Put} (h : current puts key = some q) :
    q ∈ puts ∧ q.key = key := by
  refine ⟨List.mem_of_find?_eq_some h, ?_⟩
  simpa using List.find?_some h

theorem current_of_mem {puts : List Put} {key : List Char} {p : Put} (hp : p ∈ puts) (hk : p.key = key) :
    ∃ q, current puts key = some q := by
  have hsome : (puts.find? fun p => p.key = key).isSome = true := by
    rw [List.find?_isSome]
    exact ⟨p, hp, decide_eq_true hk⟩
  exact Option.isSome_iff_exists.mp hsome

/-- Of one client's puts under a key, none is newer than the current one. -/
theorem Ordered.le_current {puts : List Put} (h : Ordered puts) {key : List Char} {p q : Put}
    (hq : current puts key = some q) (hp : p ∈ puts) (hk : p.key = key)
    (hclient : p.id.client = q.id.client) : p.id.command ≤ q.id.command := by
  induction puts with
  | nil => cases hp
  | cons x puts ih =>
    have hx := List.pairwise_cons.mp h
    rw [current_cons] at hq
    split at hq
    · obtain rfl := Option.some.inj hq
      rcases List.mem_cons.mp hp with rfl | hp
      · exact Nat.le_refl _
      · exact Nat.le_of_lt (hx.1 p hp hclient.symm)
    · next hne =>
      rcases List.mem_cons.mp hp with rfl | hp
      · exact absurd hk hne
      · exact ih hx.2 hq hp

/-! ### Requests and answers -/

/-- What the upcall for a request may print: a value that was current at some time after the
request. -/
def Answers (puts : List Put) (p : Put) (line : Line) : Prop :=
  ∃ late early q, puts = late ++ early ∧ p ∈ early ∧ current early line.key = some q ∧
    line = ⟨p.id, cString p.blob, cString q.blob⟩

/-- The key was missing at some time after the request. -/
def Missing (puts : List Put) (p : Put) : Prop :=
  ∃ late early, puts = late ++ early ∧ p ∈ early ∧ current early (cString p.blob) = none

/-- No put is ever taken back. -/
def Grows (puts puts' : List Put) : Prop := ∃ late, puts' = late ++ puts

theorem Answers.grows {puts puts' : List Put} {p : Put} {line : Line} (h : Answers puts p line)
    (hg : Grows puts puts') : Answers puts' p line := by
  obtain ⟨late, early, q, rfl, hp, hq, hline⟩ := h
  obtain ⟨later, rfl⟩ := hg
  exact ⟨later ++ late, early, q, (List.append_assoc ..).symm, hp, hq, hline⟩

theorem Missing.grows {puts puts' : List Put} {p : Put} (h : Missing puts p) (hg : Grows puts puts') :
    Missing puts' p := by
  obtain ⟨late, early, rfl, hp, hq⟩ := h
  obtain ⟨later, rfl⟩ := hg
  exact ⟨later ++ late, early, (List.append_assoc ..).symm, hp, hq⟩

theorem Grows.mem {puts puts' : List Put} (h : Grows puts puts') {p : Put} (hp : p ∈ puts) : p ∈ puts' := by
  obtain ⟨late, rfl⟩ := h
  exact List.mem_append_right _ hp

/-- The lines that a request has been answered with. -/
def linesOf (id : Id) (output : List Line) : List Line := output.filter fun line => line.id = id

theorem linesOf_concat (id : Id) (output : List Line) (line : Line) :
    linesOf id (output ++ [line]) = linesOf id output ++ if line.id = id then [line] else [] := by
  unfold linesOf
  rw [List.filter_append]
  by_cases h : line.id = id <;> simp [h]

variable {inputs : List (List (List Char))}

/-- Where a process can be. -/
inductive TaskAt (inputs : List (List (List Char))) (s : Shared) : Task → Prop where
  | client {c n : Nat} {input : List (List Char)} : inputs[c]? = some input →
      (∀ p ∈ s.puts, p.id.client = c → p.id.command < n) →
      (∀ m < n, ∀ p, putAt inputs ⟨c, m⟩ = some p → p ∈ s.puts) →
        TaskAt inputs s ⟨.client c, command c n ((commands input).drop n ++ fromQuit input)⟩
  | reading {p : Put} : p ∈ s.puts → p.key = checkKey → linesOf p.id s.output = [] →
      TaskAt inputs s ⟨.upcall p.id, ocdpoHandler p.id p.blob⟩
  | printing {p : Put} {line : Line} : p ∈ s.puts → p.key = checkKey → linesOf p.id s.output = [] →
      Answers s.puts p line →
        TaskAt inputs s ⟨.upcall p.id, .call (.print line) fun _ => .done true⟩
  | printed {p : Put} {line : Line} : p ∈ s.puts → p.key = checkKey → linesOf p.id s.output = [line] →
      TaskAt inputs s ⟨.upcall p.id, .done true⟩
  | missing {p : Put} : p ∈ s.puts → p.key = checkKey → linesOf p.id s.output = [] → Missing s.puts p →
      TaskAt inputs s ⟨.upcall p.id, .done false⟩

/-- The store and the output are in order. -/
structure InOrder (inputs : List (List (List Char))) (s : Shared) : Prop where
  ordered : Ordered s.puts
  puts : ∀ p ∈ s.puts, putAt inputs p.id = some p
  output : ∀ line ∈ s.output, ∃ p ∈ s.puts, p.key = checkKey ∧ Answers s.puts p line

/-- What a call of the process with this tag does to the others: a client puts as itself, and an
upcall prints for its own request. -/
structure Effect (tag : Origin) (s s' : Shared) : Prop where
  grows : Grows s.puts s'.puts
  client : ∀ p ∈ s'.puts, p ∈ s.puts ∨ tag = .client p.id.client
  output : s'.output = s.output ∨ ∃ line, tag = .upcall line.id ∧ s'.output = s.output ++ [line]

/-! ### Calls -/

theorem Command.put_id {id : Id} {cmd : Command} {p : Put} (h : cmd.put id = some p) : p.id = id := by
  cases cmd with
  | store key data => exact Option.some.inj h ▸ rfl
  | check key => exact Option.some.inj h ▸ rfl
  | other => cases h

/-- A put is one of an object or of a request. -/
theorem Command.put_cases {id : Id} {cmd : Command} {p : Put} (h : cmd.put id = some p) :
    (∃ key data, cmd = .store key data ∧ p = ⟨id, storeKey key, bytes data⟩) ∨
      ∃ arg, cmd = .check arg ∧ p = ⟨id, checkKey, bytes (storeKey arg)⟩ := by
  cases cmd with
  | store key data => exact .inl ⟨key, data, rfl, (Option.some.inj h).symm⟩
  | check arg => exact .inr ⟨arg, rfl, (Option.some.inj h).symm⟩
  | other => cases h

theorem storeKey_ne_checkKey (key : List Char) : storeKey key ≠ checkKey := by
  intro h
  cases h

theorem upcalls_store {p : Put} {key : List Char} (h : p.key = storeKey key) : upcalls (.put p) = [] := by
  rw [upcalls, h]
  rfl

theorem upcalls_check {p : Put} (h : p.key = checkKey) :
    upcalls (.put p) = [⟨.upcall p.id, ocdpoHandler p.id p.blob⟩] := by
  rw [upcalls, h]
  rfl

theorem putAt_of_getElem {c m : Nat} {input : List (List Char)} (hc : inputs[c]? = some input)
    {cmd : List Char} (hm : (commands input)[m]? = some cmd) :
    putAt inputs ⟨c, m⟩ = (parse cmd).put ⟨c, m⟩ := by
  simp only [putAt, commandAt, hc, Option.bind_some, hm, Option.map_some]

/-- A command that puts something is on a line of the client's. -/
theorem putAt_eq_some {id : Id} {p : Put} (h : putAt inputs id = some p) :
    ∃ cmd, commandAt inputs id = some cmd ∧ cmd.put id = some p := Option.bind_eq_some_iff.mp h

theorem line_of_putAt {id : Id} {p : Put} {input : List (List Char)} (hc : inputs[id.client]? = some input)
    (h : putAt inputs id = some p) :
    ∃ line, (commands input)[id.command]? = some line ∧ (parse line).put id = some p := by
  obtain ⟨cmd, hcmd, hput⟩ := putAt_eq_some h
  rw [commandAt, hc, Option.bind_some] at hcmd
  obtain ⟨line, hline, rfl⟩ := Option.map_eq_some_iff.mp hcmd
  exact ⟨line, hline, hput⟩

/-- A request has not been answered before it is put. -/
theorem InOrder.linesOf_eq_nil {s : Shared} (h : InOrder inputs s) {id : Id}
    (hid : ∀ p ∈ s.puts, p.id ≠ id) : linesOf id s.output = [] := by
  rw [linesOf, List.filter_eq_nil_iff]
  intro line hline he
  obtain ⟨p, hp, -, late, early, q, -, -, -, rfl⟩ := h.output line hline
  exact hid p hp (of_decide_eq_true he)

theorem InOrder.put {s : Shared} (h : InOrder inputs s) {p : Put} (hp : putAt inputs p.id = some p)
    (hlast : ∀ q ∈ s.puts, q.id.client = p.id.client → q.id.command < p.id.command) :
    InOrder inputs {s with puts := p :: s.puts} where
  ordered := List.pairwise_cons.mpr ⟨fun q hq he => hlast q hq he.symm, h.ordered⟩
  puts := fun q hq => by
    rcases List.mem_cons.mp hq with rfl | hq
    · exact hp
    · exact h.puts q hq
  output := fun line hline => by
    obtain ⟨q, hq, hkey, hanswers⟩ := h.output line hline
    exact ⟨q, List.mem_cons_of_mem _ hq, hkey, hanswers.grows ⟨[p], rfl⟩⟩

theorem TaskAt.stable {x : Task} {tag : Origin} {s s' : Shared} (hne : x.tag ≠ tag)
    (he : Effect tag s s') (h : TaskAt inputs s x) : TaskAt inputs s' x := by
  have hlines : ∀ id, x.tag = .upcall id → linesOf id s'.output = linesOf id s.output := by
    intro id hid
    rcases he.output with h | ⟨line, rfl, h⟩
    · rw [h]
    · have hline : line.id ≠ id := fun he => hne (by rw [hid, he])
      rw [h, linesOf_concat, if_neg hline, List.append_nil]
  cases h with
  | client hc hbefore hputs =>
    refine .client hc (fun p hp hclient => ?_) fun m hm p hp => he.grows.mem (hputs m hm p hp)
    rcases he.client p hp with hold | htag
    · exact hbefore p hold hclient
    · exact absurd (by rw [htag, hclient]) hne
  | reading hp hkey hnone => exact .reading (he.grows.mem hp) hkey (by rw [hlines _ rfl, hnone])
  | printing hp hkey hnone hanswers =>
    exact .printing (he.grows.mem hp) hkey (by rw [hlines _ rfl, hnone]) (hanswers.grows he.grows)
  | printed hp hkey hone => exact .printed (he.grows.mem hp) hkey (by rw [hlines _ rfl, hone])
  | missing hp hkey hnone hmissing =>
    exact .missing (he.grows.mem hp) hkey (by rw [hlines _ rfl, hnone]) (hmissing.grows he.grows)

/-- The tags that have been given. -/
def Known : Origin → Shared → Prop
  | .client _, _ => True
  | .upcall id, s => ∃ p ∈ s.puts, p.id = id

theorem TaskAt.known {x : Task} {s : Shared} (h : TaskAt inputs s x) : Known x.tag s := by
  cases h with
  | client => exact True.intro
  | reading hp | printing hp | printed hp | missing hp => exact ⟨_, hp, rfl⟩

/-- A put starts the upcall for a request, which is the first with its tag. -/
theorem InOrder.started {s : Shared} (h : InOrder inputs s) {p : Put} (hp : putAt inputs p.id = some p)
    (hfresh : ∀ q ∈ s.puts, q.id ≠ p.id) :
    ((upcalls (.put p)).map Process.tag).Nodup ∧ ∀ y ∈ upcalls (.put p), ¬ Known y.tag s ∧
      TaskAt inputs {s with puts := p :: s.puts} y := by
  obtain ⟨cmd, -, hput⟩ := putAt_eq_some hp
  rcases Command.put_cases hput with ⟨key, data, -, he⟩ | ⟨arg, -, he⟩
  · rw [upcalls_store (congrArg Put.key he)]
    exact ⟨List.nodup_nil, fun y hy => by cases hy⟩
  · have hkey : p.key = checkKey := congrArg Put.key he
    rw [upcalls_check hkey]
    refine ⟨List.nodup_singleton _, fun y hy => ?_⟩
    obtain rfl := List.mem_singleton.mp hy
    refine ⟨fun ⟨q, hq, hid⟩ => hfresh q hq hid, ?_⟩
    exact .reading (List.mem_cons_self ..) hkey (h.linesOf_eq_nil hfresh)

/-- What a call of a process does. -/
structure Called (inputs : List (List (List Char))) (tag : Origin) (op : Op)
    (k : Reply op → Program Op Reply Spinning Bool) (s : Shared) : Prop where
  shared : InOrder inputs (act op s).2
  effect : Effect tag s (act op s).2
  self : TaskAt inputs (act op s).2 ⟨tag, k (act op s).1⟩
  tags : ((upcalls op).map Process.tag).Nodup
  started : ∀ y ∈ upcalls op, ¬ Known y.tag s ∧ TaskAt inputs (act op s).2 y

/-- The next call of a client, by the numbers of its commands. -/
theorem client_call {c n : Nat} {input : List (List Char)} (hc : inputs[c]? = some input) {op : Op}
    {k : Reply op → Program Op Reply Spinning Bool}
    (h : command c n ((commands input).drop n ++ fromQuit input) = .call op k) :
    ∃ m p, n ≤ m ∧ p.id = ⟨c, m⟩ ∧ putAt inputs ⟨c, m⟩ = some p ∧ op = .put p ∧
      (∀ i < m, n ≤ i → putAt inputs ⟨c, i⟩ = none) ∧
      ∀ r, k r = command c (m + 1) ((commands input).drop (m + 1) ++ fromQuit input) := by
  have hq : quit ∉ (commands input).drop n := fun hmem => quit_notMem input (List.mem_of_mem_drop hmem)
  obtain ⟨i, cmd, p, hi, hp, hop, hnone, hk⟩ := command_call hq h
  have hline : ∀ j cmd, ((commands input).drop n)[j]? = some cmd →
      putAt inputs ⟨c, n + j⟩ = (parse cmd).put ⟨c, n + j⟩ := by
    intro j cmd hj
    rw [List.getElem?_drop] at hj
    exact putAt_of_getElem hc hj
  refine ⟨n + i, p, Nat.le_add_right n i, Command.put_id hp, (hline i cmd hi).trans hp, hop, ?_, fun r => ?_⟩
  · intro m hm hnm
    obtain ⟨j, rfl⟩ := Nat.exists_eq_add_of_le hnm
    obtain ⟨hin, -⟩ := List.getElem?_eq_some_iff.mp hi
    have hj : ((commands input).drop n)[j]? = some ((commands input).drop n)[j] :=
      List.getElem?_eq_getElem (by omega)
    rw [hline j _ hj, hnone j (by omega) _ hj]
  · rw [hk, List.drop_drop, Nat.add_assoc]

theorem called_client {s : Shared} (hs : InOrder inputs s) {c n : Nat} {input : List (List Char)}
    (hc : inputs[c]? = some input) (hbefore : ∀ p ∈ s.puts, p.id.client = c → p.id.command < n)
    (hputs : ∀ m < n, ∀ p, putAt inputs ⟨c, m⟩ = some p → p ∈ s.puts) {op : Op}
    {k : Reply op → Program Op Reply Spinning Bool}
    (h : command c n ((commands input).drop n ++ fromQuit input) = .call op k) :
    Called inputs (.client c) op k s := by
  obtain ⟨m, p, hnm, hid, hput, rfl, hnone, hk⟩ := client_call hc h
  have hlast : ∀ q ∈ s.puts, q.id.client = p.id.client → q.id.command < p.id.command := by
    intro q hq hclient
    rw [hid] at hclient ⊢
    exact Nat.lt_of_lt_of_le (hbefore q hq hclient) hnm
  have hfresh : ∀ q ∈ s.puts, q.id ≠ p.id := fun q hq he => by
    have hlt := hlast q hq (congrArg Id.client he)
    rw [he] at hlt
    exact Nat.lt_irrefl _ hlt
  rw [← hid] at hput
  obtain ⟨htags, hstarted⟩ := hs.started hput hfresh
  have hself : TaskAt inputs {s with puts := p :: s.puts}
      ⟨.client c, command c (m + 1) ((commands input).drop (m + 1) ++ fromQuit input)⟩ := by
    refine .client hc (fun q hq hclient => ?_) fun i hi q hq => ?_
    · rcases List.mem_cons.mp hq with rfl | hq
      · rw [hid]
        exact Nat.lt_succ_self m
      · exact (hbefore q hq hclient).trans_le (hnm.trans (Nat.le_succ m))
    · rcases Nat.lt_succ_iff_lt_or_eq.mp hi with hlt | rfl
      · -- a put before this one is one of those before `n`
        have hin : i < n := by
          by_contra hle
          rw [hnone i hlt (Nat.le_of_not_lt hle)] at hq
          cases hq
        exact List.mem_cons_of_mem _ (hputs i hin q hq)
      · rw [← hid, hput] at hq
        exact Option.some.inj hq ▸ List.mem_cons_self ..
  exact {
    shared := hs.put hput hlast
    effect := ⟨⟨[p], rfl⟩, fun q hq => (List.mem_cons.mp hq).symm.imp_right fun he => by rw [he, hid], .inl rfl⟩
    self := by
      rw [hk]
      exact hself
    tags := htags
    started := hstarted }

theorem TaskAt.call {s : Shared} {tag : Origin} {op : Op} {k : Reply op → Program Op Reply Spinning Bool}
    (h : TaskAt inputs s ⟨tag, .call op k⟩) (hs : InOrder inputs s) : Called inputs tag op k s := by
  generalize hx : (⟨tag, .call op k⟩ : Task) = x at h
  cases h with
  | client hc hbefore hputs =>
    obtain ⟨rfl, hm⟩ := Process.mk.inj hx
    exact called_client hs hc hbefore hputs hm.symm
  | @reading p hp hkey hnone =>
    obtain ⟨rfl, hm⟩ := Process.mk.inj hx
    cases hm
    refine ⟨hs, ⟨⟨[], rfl⟩, fun q hq => .inl hq, .inl rfl⟩, ?_, List.nodup_nil, fun y hy => by cases hy⟩
    show TaskAt inputs s ⟨.upcall p.id, _⟩
    cases hcur : current s.puts (cString p.blob) with
    | none =>
      simp only [act, hcur, Option.map_none]
      exact .missing hp hkey hnone ⟨[], s.puts, rfl, hp, hcur⟩
    | some q =>
      simp only [act, hcur, Option.map_some]
      exact .printing hp hkey hnone ⟨[], s.puts, q, rfl, hp, hcur, rfl⟩
  | @printing p line hp hkey hnone hanswers =>
    cases hx
    have hid : line.id = p.id := by
      obtain ⟨late, early, q, -, -, -, rfl⟩ := hanswers
      rfl
    have hone : linesOf p.id (s.output ++ [line]) = [line] := by
      rw [linesOf_concat, if_pos hid, hnone, List.nil_append]
    refine ⟨⟨hs.ordered, hs.puts, fun l hl => ?_⟩,
      ⟨⟨[], rfl⟩, fun q hq => .inl hq, .inr ⟨line, by rw [hid], rfl⟩⟩, .printed hp hkey hone,
      List.nodup_nil, fun y hy => by cases hy⟩
    rcases List.mem_append.mp hl with hl | hl
    · exact hs.output l hl
    · obtain rfl := List.mem_singleton.mp hl
      exact ⟨p, hp, hkey, hanswers⟩
  | printed => cases hx
  | missing => cases hx

/-! ### Every run -/

variable {c : System}

/-- The store is in order, the tags are all different, and every process is where it should be. -/
def Sound (inputs : List (List (List Char))) (c : System) : Prop :=
  InOrder inputs c.shared ∧ (c.processes.map Process.tag).Nodup ∧
    ∀ x ∈ c.processes, TaskAt inputs c.shared x

theorem sound_step : Transition.Preserved Step (Sound inputs) := by
  have hknown : ∀ (x : Task) s, TaskAt inputs s x → Known x.tag s := fun x s h => h.known
  have hstable : ∀ (x : Task) tag s s', x.tag ≠ tag → Effect tag s s' → TaskAt inputs s x →
      TaskAt inputs s' x := fun x tag s s' hne he h => h.stable hne he
  refine Pool.keepsEach_step hknown hstable fun tag op k s hs h => ?_
  have hcall := h.call hs
  exact ⟨hcall.shared, hcall.effect, hcall.self, hcall.tags, hcall.started⟩

theorem start_tags : (start inputs).processes.map Process.tag = (List.range inputs.length).map .client := by
  have hsnd : inputs.zipIdx.map Prod.snd = List.range inputs.length := by
    rw [List.zipIdx_map_snd, List.range_eq_range']
  rw [← hsnd, start, List.map_map, List.map_map]
  rfl

theorem Sound.reached (h : Reached inputs c) : Sound inputs c := by
  have hstart : Sound inputs (start inputs) := by
    refine ⟨⟨List.Pairwise.nil, fun p hp => (List.not_mem_nil hp).elim,
      fun l hl => (List.not_mem_nil hl).elim⟩, ?_, fun x hx => ?_⟩
    · rw [start_tags]
      exact List.nodup_range.map fun a b hab => Origin.client.inj hab
    · obtain ⟨⟨input, i⟩, hi, rfl⟩ := List.mem_map.mp hx
      have hget : inputs[i]? = some input := List.mem_zipIdx_iff_getElem?.mp hi
      have hclient : TaskAt inputs ⟨[], []⟩
          ⟨.client i, command i 0 ((commands input).drop 0 ++ fromQuit input)⟩ :=
        .client hget (fun p hp => (List.not_mem_nil hp).elim) fun m hm => (Nat.not_lt_zero m hm).elim
      rwa [List.drop_zero, commands_append] at hclient
  exact sound_step.run h hstart

/-- Every client has a process, and so has every request. -/
def Tagged (inputs : List (List (List Char))) (c : System) : Prop :=
  (∀ i < inputs.length, .client i ∈ c.processes.map Process.tag) ∧
    ∀ p ∈ c.shared.puts, p.key = checkKey → .upcall p.id ∈ c.processes.map Process.tag

theorem tagged_step : Transition.Preserved Step (Tagged inputs) := by
  intro c c' hc hstep
  obtain ⟨before, tag, op, k, after, hp, rfl⟩ := hstep.split
  have hmem : ∀ t ∈ c.processes.map Process.tag,
      t ∈ (before ++ ⟨tag, k (act op c.shared).1⟩ :: after ++ upcalls op).map Process.tag := by
    intro t ht
    rw [hp] at ht
    simp only [List.map_append, List.map_cons, List.mem_append] at ht ⊢
    exact .inl ht
  refine ⟨fun i hi => hmem _ (hc.1 i hi), fun p hput hkey => ?_⟩
  cases op with
  | put q =>
    rcases List.mem_cons.mp hput with rfl | hput
    · rw [upcalls_check hkey]
      simp
    · exact hmem _ (hc.2 p hput hkey)
  | get key => exact hmem _ (hc.2 p hput hkey)
  | print line => exact hmem _ (hc.2 p hput hkey)

theorem Tagged.reached (h : Reached inputs c) : Tagged inputs c := by
  refine tagged_step.run h ⟨fun i hi => ?_, fun p hp => (List.not_mem_nil hp).elim⟩
  rw [start_tags]
  exact List.mem_map_of_mem (List.mem_range.mpr hi)

/-! ### What a line shows -/

theorem cString_bytes (s : List Char) : cString (bytes s) = cString s := by
  unfold cString bytes
  rw [List.takeWhile_append]
  split
  · next h =>
    have hall := (List.takeWhile_prefix _).eq_of_length h
    rw [hall]
    exact List.append_nil s
  · rfl

theorem cString_storeKey (key : List Char) : cString (storeKey key) = storeKey (cString key) := rfl

/-- A line that answers a `check`, with what was current at some time after the request. Of its own
client's commands the history had the `check` by then and all that stand before it, so that
what is shown is no older than the last of them that stored something under the key. -/
structure Right (inputs : List (List (List Char))) (puts : List Put) (line : Line) : Prop where
  asked : ∃ arg, commandAt inputs line.id = some (.check arg) ∧ line.key = storeKey (cString arg)
  shown : ∃ late early q key data, puts = late ++ early ∧ current early line.key = some q ∧
    commandAt inputs q.id = some (.store key data) ∧ line.key = storeKey key ∧ line.value = cString data ∧
      ∀ i ≤ line.id.command, ∀ p, putAt inputs ⟨line.id.client, i⟩ = some p →
        p ∈ early ∧ (p.key = line.key → q.id.client = line.id.client → i ≤ q.id.command)

theorem putAt_id {id : Id} {p : Put} (h : putAt inputs id = some p) : p.id = id := by
  obtain ⟨_, -, hput⟩ := putAt_eq_some h
  exact Command.put_id hput

theorem InOrder.asked {s : Shared} (hs : InOrder inputs s) {p : Put} (hp : p ∈ s.puts) (hkey : p.key = checkKey) :
    ∃ arg, commandAt inputs p.id = some (.check arg) ∧ cString p.blob = storeKey (cString arg) := by
  obtain ⟨cmd, hcmd, hput⟩ := putAt_eq_some (hs.puts p hp)
  rcases Command.put_cases hput with ⟨key, data, -, he⟩ | ⟨arg, rfl, he⟩
  · exact absurd ((congrArg Put.key he).symm.trans hkey) (storeKey_ne_checkKey key)
  · refine ⟨arg, hcmd, ?_⟩
    rw [congrArg Put.blob he, cString_bytes, cString_storeKey]

theorem InOrder.stored {s : Shared} (hs : InOrder inputs s) {q : Put} (hq : q ∈ s.puts)
    {arg : List Char} (hkey : q.key = storeKey arg) :
    ∃ key data, commandAt inputs q.id = some (.store key data) ∧ storeKey arg = storeKey key ∧
      cString q.blob = cString data := by
  obtain ⟨cmd, hcmd, hput⟩ := putAt_eq_some (hs.puts q hq)
  rcases Command.put_cases hput with ⟨key, data, rfl, he⟩ | ⟨arg', -, he⟩
  · refine ⟨key, data, hcmd, hkey.symm.trans (congrArg Put.key he), ?_⟩
    rw [congrArg Put.blob he]
    exact cString_bytes data
  · exact absurd (hkey.symm.trans (congrArg Put.key he)) (storeKey_ne_checkKey arg)

theorem InOrder.right {s : Shared} (hs : InOrder inputs s)
    (hearlier : ∀ p ∈ s.puts, ∀ i < p.id.command, ∀ q, putAt inputs ⟨p.id.client, i⟩ = some q → q ∈ s.puts)
    {line : Line} (hline : line ∈ s.output) : Right inputs s.puts line := by
  obtain ⟨p, hp, hkey, late, early, q, hputs, hearly, hq, rfl⟩ := hs.output line hline
  obtain ⟨arg, harg, hblob⟩ := hs.asked hp hkey
  obtain ⟨hmem, hqkey⟩ := mem_of_current hq
  have hstored := hs.stored (hputs ▸ List.mem_append_right _ hmem) (hqkey.trans hblob)
  obtain ⟨key, data, hcmd, hsame, hvalue⟩ := hstored
  have hordered := hs.ordered
  rw [hputs] at hordered
  refine ⟨⟨arg, harg, hblob⟩, late, early, q, key, data, hputs, hq, hcmd, hblob.trans hsame, hvalue, ?_⟩
  intro i hi r hr
  have hrid : r.id = ⟨p.id.client, i⟩ := putAt_id hr
  have hrearly : r ∈ early := by
    rcases Nat.lt_or_eq_of_le hi with hlt | rfl
    · have hr' := hearlier p hp i hlt r hr
      rw [hputs] at hr'
      exact hordered.mem_early hearly hr' (by rw [hrid]) (by rw [hrid]; exact hlt)
    · -- the request itself
      rw [hs.puts p hp] at hr
      exact Option.some.inj hr ▸ hearly
  refine ⟨hrearly, fun hrkey hclient => ?_⟩
  have hordered' : Ordered early := (List.pairwise_append.mp hordered).2.1
  have hle := hordered'.le_current hq hrearly hrkey (by rw [hrid, hclient])
  rw [hrid] at hle
  exact hle

/-- Where a client with a command that puts something is. -/
theorem Sound.client (h : Sound inputs c) (ht : Tagged inputs c) {id : Id} {p : Put}
    (hp : putAt inputs id = some p) : ∃ n input, inputs[id.client]? = some input ∧
      (∀ p ∈ c.shared.puts, p.id.client = id.client → p.id.command < n) ∧
      (∀ m < n, ∀ p, putAt inputs ⟨id.client, m⟩ = some p → p ∈ c.shared.puts) ∧
      ⟨.client id.client, command id.client n ((commands input).drop n ++ fromQuit input)⟩ ∈
        c.processes := by
  obtain ⟨cmd, hcmd, -⟩ := putAt_eq_some hp
  obtain ⟨line, hline, -⟩ := Option.map_eq_some_iff.mp hcmd
  obtain ⟨input, hinput, -⟩ := Option.bind_eq_some_iff.mp hline
  obtain ⟨x, hx, htag⟩ := List.mem_map.mp (ht.1 id.client (List.getElem?_eq_some_iff.mp hinput).1)
  have hat := h.2.2 x hx
  cases hat with
  | @client i n input' hi hbefore hputs =>
    cases htag
    exact ⟨n, input', hi, hbefore, hputs, hx⟩
  | _ => cases htag

/-- A client has put everything that stands before one of its puts. -/
theorem Sound.earlier (h : Sound inputs c) (ht : Tagged inputs c) {p : Put} (hp : p ∈ c.shared.puts)
    {i : Nat} (hi : i < p.id.command) {q : Put} (hq : putAt inputs ⟨p.id.client, i⟩ = some q) :
    q ∈ c.shared.puts := by
  obtain ⟨n, input, -, hbefore, hputs, -⟩ := h.client ht (h.1.puts p hp)
  exact hputs i (Nat.lt_trans hi (hbefore p hp rfl)) q hq

/-- Every request that has been put has its upcall. -/
theorem Sound.upcall (h : Sound inputs c) (ht : Tagged inputs c) {p : Put} (hp : p ∈ c.shared.puts)
    (hkey : p.key = checkKey) :
    ∃ x ∈ c.processes, x.tag = .upcall p.id ∧ TaskAt inputs c.shared x := by
  obtain ⟨x, hx, htag⟩ := List.mem_map.mp (ht.2 p hp hkey)
  exact ⟨x, hx, htag, h.2.2 x hx⟩

theorem Sound.output_nodup (h : Sound inputs c) (ht : Tagged inputs c) :
    (c.shared.output.map Line.id).Nodup := by
  rw [List.nodup_iff_count_le_one]
  intro id
  have hcount : (c.shared.output.map Line.id).count id = (linesOf id c.shared.output).length := by
    rw [List.count_eq_countP, List.countP_map, linesOf, ← List.countP_eq_length_filter]
    exact List.countP_congr fun line _ => by simp
  rw [hcount]
  by_cases hid : ∃ line ∈ c.shared.output, line.id = id
  · obtain ⟨line, hline, rfl⟩ := hid
    obtain ⟨p, hp, hkey, late, early, q, -, -, -, rfl⟩ := h.1.output line hline
    obtain ⟨x, -, htag, hat⟩ := h.upcall ht hp hkey
    cases hat with
    | client => cases htag
    | reading _ _ hlines | printing _ _ hlines | printed _ _ hlines | missing _ _ hlines =>
      rw [← Origin.upcall.inj htag, hlines]
      simp
  · have hnone : linesOf id c.shared.output = [] := by
      rw [linesOf, List.filter_eq_nil_iff]
      exact fun line hline he => hid ⟨line, hline, of_decide_eq_true he⟩
    rw [hnone]
    decide

/-- In every state that is reached, no request has been answered twice, and every line is right. -/
theorem checks_right (h : Reached inputs c) :
    (c.shared.output.map Line.id).Nodup ∧ ∀ line ∈ c.shared.output, Right inputs c.shared.puts line := by
  have hs := Sound.reached h
  have ht := Tagged.reached h
  exact ⟨hs.output_nodup ht, fun line hline =>
    hs.1.right (fun p hp i hi q hq => hs.earlier ht hp hi hq) hline⟩

/-! ### The end -/

/-- A client starts upcalls, and they start nothing. -/
def Origin.level : Origin → Nat
  | .client _ => 1
  | .upcall _ => 0

theorem upcalls_tag {op : Op} {y : Task} (hy : y ∈ upcalls op) :
    ∃ id blob, y = ⟨.upcall id, ocdpoHandler id blob⟩ := by
  cases op with
  | put p =>
    rw [upcalls] at hy
    split at hy
    · exact ⟨p.id, p.blob, List.mem_singleton.mp hy⟩
    · cases hy
  | get key => cases hy
  | print line => cases hy

theorem below_upcall (id : Id) (blob : List Char) :
    Pool.Below upcalls Origin.level ⟨.upcall id, ocdpoHandler id blob⟩ := by
  refine And.intro (fun y hy => by cases hy) fun r _ => ?_
  cases r with
  | some obj => exact And.intro (fun y hy => by cases hy) fun _ _ => True.intro
  | none => exact True.intro

theorem acc_start (inputs : List (List (List Char))) : Acc (fun b a => Step a b) (start inputs) := by
  refine Pool.acc_of_below Origin.level (fun op y hy => ?_) fun x hx => ?_
  · obtain ⟨id, blob, rfl⟩ := upcalls_tag hy
    exact below_upcall id blob
  · obtain ⟨⟨input, i⟩, -, rfl⟩ := List.mem_map.mp hx
    refine calls_of_forall (fun op y hy => ?_) _
    obtain ⟨id, blob, rfl⟩ := upcalls_tag hy
    exact Nat.zero_lt_one

/-- Where no step is possible, no process calls anything. -/
theorem next?_at_rest (hrest : ∀ d, ¬ Step c d) {x : Task} (hx : x ∈ c.processes) :
    x.program.next? = none := by
  cases hm : x.program with
  | done a => rfl
  | call op k =>
    obtain ⟨d, hd⟩ := Pool.exists_step hx hm
    exact absurd hd (hrest d)
  | fail e => rfl

/-- A client that has come to its end has put everything. -/
theorem Sound.all_put (h : Sound inputs c) (ht : Tagged inputs c) (hrest : ∀ d, ¬ Step c d) {id : Id}
    {p : Put} (hp : putAt inputs id = some p) : p ∈ c.shared.puts := by
  obtain ⟨n, input, hinput, -, hputs, hx⟩ := h.client ht hp
  by_cases hlt : id.command < n
  · exact hputs id.command hlt p hp
  · have hq : quit ∉ (commands input).drop n := fun hmem => quit_notMem input (List.mem_of_mem_drop hmem)
    obtain ⟨m, hm⟩ := Nat.exists_eq_add_of_le (Nat.le_of_not_lt hlt)
    obtain ⟨line, hline, hput⟩ := line_of_putAt hinput hp
    have hrestLine : ((commands input).drop n)[m]? = some line := by
      rw [List.getElem?_drop, ← hm, hline]
    have hnone := command_next?_none hq (next?_at_rest hrest hx) hrestLine
    rw [← hm, hput] at hnone
    cases hnone

/-- In the end a request has been answered, if its client has put the object before. -/
theorem Sound.answered (h : Sound inputs c) (ht : Tagged inputs c) (hrest : ∀ d, ¬ Step c d) {p q : Put}
    (hp : p ∈ c.shared.puts) (hkey : p.key = checkKey) (hq : q ∈ c.shared.puts)
    (hqkey : q.key = cString p.blob) (hclient : q.id.client = p.id.client)
    (hlt : q.id.command < p.id.command) : ∃ line, linesOf p.id c.shared.output = [line] := by
  obtain ⟨x, hx, htag, hat⟩ := h.upcall ht hp hkey
  have hnone := next?_at_rest hrest hx
  cases hat with
  | client => cases htag
  | reading => cases hnone
  | printing => cases hnone
  | @printed r line _ _ hlines =>
    rw [← Origin.upcall.inj htag]
    exact ⟨line, hlines⟩
  | @missing r hr _ _ hmissing =>
    -- the object was there before the request
    obtain rfl := h.1.ordered.eq_of_id hr hp (Origin.upcall.inj htag)
    obtain ⟨late, early, hputs, hearly, hmissing⟩ := hmissing
    have hordered := h.1.ordered
    rw [hputs] at hordered hq
    obtain ⟨q', hcurrent⟩ := current_of_mem (hordered.mem_early hearly hq hclient hlt) hqkey
    cases hcurrent.symm.trans hmissing

/-- In the end every process has come to its end, if no client waits for `quit` for ever. -/
theorem Sound.all_done (h : Sound inputs c) (hquit : ∀ input ∈ inputs, quit ∈ input)
    (hrest : ∀ d, ¬ Step c d) {x : Task} (hx : x ∈ c.processes) : x.program.isDone = true := by
  have hnone := next?_at_rest hrest hx
  have hat := h.2.2 x hx
  cases hat with
  | @client i n input hi =>
    have hmem := hquit input (List.mem_of_getElem? hi)
    rw [← commands_append input] at hmem
    have hahead := (List.mem_append.mp hmem).resolve_left (quit_notMem input)
    exact command_done (List.mem_append_right _ hahead) hnone
  | reading => cases hnone
  | printing => cases hnone
  | printed => rfl
  | missing => rfl

/-- With `quit` in every input every run ends, with all clients and upcalls done, and then every
`check` of a key that its client has stored before is answered, by one line. -/
theorem checks_answered (inputs : List (List (List Char))) (hquit : ∀ input ∈ inputs, quit ∈ input) :
    Acc (fun b a => Step a b) (start inputs) ∧ ∀ c, Reached inputs c → (∀ d, ¬ Step c d) →
      (∀ x ∈ c.processes, x.program.isDone = true) ∧
      ∀ id arg, commandAt inputs id = some (.check arg) → ∀ i < id.command, ∀ data,
        commandAt inputs ⟨id.client, i⟩ = some (.store (cString arg) data) →
          ∃ line, (c.shared.output.filter fun line => line.id = id) = [line] := by
  refine ⟨acc_start inputs, fun c hreached hrest => ?_⟩
  have h := Sound.reached hreached
  refine ⟨fun x hx => h.all_done hquit hrest hx, fun id arg hid i hi data hstore => ?_⟩
  have ht := Tagged.reached hreached
  have hcheck : putAt inputs id = some ⟨id, checkKey, bytes (storeKey arg)⟩ := by
    rw [putAt, hid]
    rfl
  have hstored : putAt inputs ⟨id.client, i⟩ = some ⟨⟨id.client, i⟩, storeKey (cString arg), bytes data⟩ := by
    rw [putAt, hstore]
    rfl
  have hkey : storeKey (cString arg) = cString (bytes (storeKey arg)) := by
    rw [cString_bytes, cString_storeKey]
  exact h.answered ht hrest (h.all_put ht hrest hcheck) rfl (h.all_put ht hrest hstored) hkey rfl hi

/-! ### One client -/

def storeAndCheck : List (List (List Char)) := [["store k v".toList, "check k".toList, quit]]

/-- The line has been printed, and the client is done. -/
def checked : System :=
  (Pool.schedule act upcalls (start storeAndCheck) [0, 0, 1, 1]).getD (start storeAndCheck)

theorem reached_checked : Reached storeAndCheck checked :=
  Pool.reaches_schedule act upcalls [0, 0, 1, 1] rfl

theorem checks_right_checked :
    checked.shared.output = [⟨⟨0, 1⟩, "/store/k".toList, "v".toList⟩] ∧
      Right storeAndCheck checked.shared.puts ⟨⟨0, 1⟩, "/store/k".toList, "v".toList⟩ := by
  have houtput : checked.shared.output = [⟨⟨0, 1⟩, "/store/k".toList, "v".toList⟩] := rfl
  have hline : ⟨⟨0, 1⟩, "/store/k".toList, "v".toList⟩ ∈ checked.shared.output := by
    rw [houtput]
    exact List.mem_singleton_self _
  exact ⟨houtput, (checks_right reached_checked).2 _ hline⟩

theorem checks_answered_checked : (∀ x ∈ checked.processes, x.program.isDone = true) ∧
    ∃ line, (checked.shared.output.filter fun line => line.id = ⟨0, 1⟩) = [line] := by
  have hrest : ∀ d, ¬ Step checked d := Pool.rest_of_isDone (by decide)
  obtain ⟨hdone, hanswered⟩ :=
    (checks_answered storeAndCheck (by decide)).2 checked reached_checked hrest
  exact ⟨hdone, hanswered ⟨0, 1⟩ ['k'] rfl 0 (by decide) ['v'] rfl⟩

end CascadePlayground.Shortcut
