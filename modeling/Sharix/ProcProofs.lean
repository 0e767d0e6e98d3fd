import Sharix.ThreadProofs

/-! # The process list — `proc.c`

    `kernel_thread` links every new process in front of `proc_list`.  `do_exit`
    frees the running process, takes an entry off the list and goes on as the
    parent; `find_proc` walks the list for a `pid`.

    The entry that `do_exit_thread` takes off is the parent's, not the exiting
    process's.  A parent that stands on the list is lost from it and the freed
    process stays; the outcome is the intended one only for a parent whose
    links are a copy of the exiting process's.  `find_proc` tests the first
    process of the list and never moves on to the next. -/

namespace SharixProc

open SharixList

/-! ## `proc_struct`, `current` and `proc_list` -/

/-- The addresses of list entries: `NULL`, `&proc_list` and `&p->list_link`. -/
inductive Addr where
  | null
  | procList
  | listLink (p : Nat)
deriving DecidableEq, Repr

instance : Nullable Addr := ⟨.null⟩

/-- The fields of `struct proc_struct` that are read here.  `threads` holds the
    links of `thread_list` and of the threads on it. -/
structure ProcStruct where
  pid : Int
  needResched : Int
  kstack : Nat
  parent : Option Nat
  threads : LinkMem SharixThread.Addr

/-- What `kfree` is called on: a kernel stack or a `proc_struct`. -/
inductive Block where
  | stack (kstack : Nat)
  | proc (p : Nat)
deriving DecidableEq, Repr

/-- The links of `proc_list`, the processes, `current`, the threads' `tid`s,
    `currentthread`, and the calls of `kfree` so far. -/
structure State where
  link : LinkMem Addr
  proc : Nat → ProcStruct
  current : Option Nat
  tid : Nat → Int
  currentthread : Option Nat
  freed : List Block

/-- The state with the fields of process `p` set to `v`. -/
def setProc (p : Nat) (v : ProcStruct) (s : State) : State :=
  { s with proc := Function.update s.proc p v }

def kfree (b : Block) (s : State) : State := { s with freed := s.freed ++ [b] }

/-- `&(proc->list_link)`; no process lies at `NULL`. -/
def linkOf : Option Nat → Addr
  | none => .null
  | some p => .listLink p

/-- `to_struct(le, struct proc_struct, list_link)`. -/
def toProc : Addr → Option Nat
  | .listLink p => some p
  | _ => none

/-! ## `kernel_thread`, `do_exit`, `find_proc` -/

/-- The process `proc` that `kmalloc` returned, filled in. -/
def allocProc (proc : Nat) (s : State) : Option State := do
  let p := s.proc proc
  let threads ← listInit p.threads .threadList
  return setProc proc { p with pid := -1, parent := none, threads := threads } s

/-- `proc` and `kstack` are what the two calls of `kmalloc` return. -/
def kernelThread (proc : Option Nat) (kstack : Nat) (s : State) :
    Option (State × Int) :=
  match proc with
  | none => some (s, -1)
  | some proc => do
      let s ← allocProc proc s
      let p := { s.proc proc with parent := s.current, kstack := kstack, pid := 1 }
      let link ← listAdd s.link .procList (.listLink proc)
      return (setProc proc p { s with link := link }, 1)

/-- `schedule`, up to the `thread_run` of the thread it returns. -/
def schedule (fuel : Nat) (rand : Nat → Nat) (s : State) :
    Option (State × Option Nat) := do
  let current ← s.current
  let p := s.proc current
  let run ← SharixThread.pickFrom p.threads rand fuel 0 .threadList none
  match run with
  | some run => do
      let t ← SharixThread.toThread run
      let needResched := if s.tid t = 0 then 0 else p.needResched
      let s := setProc current { p with needResched := needResched } s
      return ({ s with currentthread := some t }, some t)
  | none => return (setProc current { p with needResched := 0 } s, none)

def doExitThread (fuel : Nat) (rand : Nat → Nat) (s : State) :
    Option (State × Option Nat) := do
  let current ← s.current
  let proc := (s.proc current).parent
  let s := kfree (.stack (s.proc current).kstack) s
  -- `proc` is the parent already
  let link ← listDel s.link (linkOf proc)
  let s := kfree (.proc current) { s with link := link }
  schedule fuel rand { s with current := proc }

def doExit (fuel : Nat) (rand : Nat → Nat) (s : State) :
    Option (State × Option Nat) :=
  doExitThread fuel rand s

/-- `while (le != &proc_list)`; the body leaves `le` as it is. -/
def findFrom (s : State) (pid : Int) : Nat → Addr → Option (Option Nat)
  | 0, _ => none
  | fuel + 1, le =>
      if le = .procList then some none
      else do
        let proc ← toProc le
        if (s.proc proc).pid = pid then return some proc
        else findFrom s pid fuel le

def findProc (fuel : Nat) (pid : Int) (s : State) : Option (Option Nat) := do
  let le ← listNext s.link .procList
  findFrom s pid fuel le

/-! ## The processes `kernel_thread` has linked -/

/-- `proc_list` is well-formed and holds the processes `xs` in this order. -/
def ProcList (s : State) (xs : List Nat) : Prop :=
  Ring s.link .procList (xs.map Addr.listLink)

theorem ProcList.procs_nodup {s : State} {xs : List Nat} (hr : ProcList s xs) :
    xs.Nodup :=
  List.Nodup.of_map _ (List.nodup_cons.mp (Ring.nodup hr)).2

/-- Every process's `thread_list` is well-formed. -/
def ThreadLists (s : State) : Prop :=
  ∀ p, ∃ ts : List Nat,
    Ring (s.proc p).threads .threadList (ts.map SharixThread.Addr.threadLink)

/-- `kernel_thread` puts the new process in front, with the running process as
    its parent. -/
theorem kernelThread_procList {s : State} {xs : List Nat} {p : Nat}
    (hr : ProcList s xs) (hfresh : p ∉ xs) (kstack : Nat) :
    ∃ s', kernelThread (some p) kstack s = some (s', 1) ∧
      ProcList s' (p :: xs) ∧ s'.current = s.current ∧
      (s'.proc p).parent = s.current ∧
      (∀ q, q ≠ p → s'.proc q = s.proc q) ∧
      Ring (s'.proc p).threads .threadList [] := by
  obtain ⟨threads, hinit, hthreads, -⟩ :=
    listInit_ring (s.proc p).threads (h := SharixThread.Addr.threadList) (by decide)
  have hnew : Addr.listLink p ∉ Addr.procList :: xs.map Addr.listLink := by
    simpa using hfresh
  obtain ⟨link, hadd, hring, -⟩ := listAdd_ring hr Addr.noConfusion hnew
  let v : ProcStruct := { s.proc p with pid := -1, parent := none, threads := threads }
  have halloc : allocProc p s = some (setProc p v s) := by
    rw [allocProc, hinit]
    rfl
  let v' : ProcStruct := { v with parent := s.current, kstack := kstack, pid := 1 }
  refine ⟨setProc p v' { setProc p v s with link := link }, ?_, hring, rfl, ?_, ?_, ?_⟩
  · rw [kernelThread, halloc]
    simp only [Option.bind_eq_bind, Option.bind_some, setProc, hadd,
      Function.update_self]
    rfl
  · simp [setProc, v']
  · intro q hq
    simp [setProc, hq]
  · simpa [setProc, v', v] using hthreads

/-- The calls `kernel_thread` makes for the processes `ps`, one after
    another. -/
def kernelThreads (kstack : Nat → Nat) (ps : List Nat) (s : State) : Option State :=
  ps.foldlM (fun s p => (kernelThread (some p) (kstack p) s).map Prod.fst) s

/-- Whatever processes `kernel_thread` makes, the list stays well-formed and
    holds them all, the latest first. -/
theorem kernelThreads_procList (kstack : Nat → Nat) {ps : List Nat} :
    ∀ {s : State} {xs : List Nat}, ProcList s xs → ThreadLists s →
      (ps.reverse ++ xs).Nodup →
      ∃ s', kernelThreads kstack ps s = some s' ∧
        ProcList s' (ps.reverse ++ xs) ∧ ThreadLists s' := by
  induction ps with
  | nil => exact fun hr ht _ => ⟨_, rfl, hr, ht⟩
  | cons p ps ih =>
      intro s xs hr ht hnd
      have hsplit : (p :: ps).reverse ++ xs = ps.reverse ++ p :: xs := by simp
      rw [hsplit] at hnd ⊢
      have hfresh : p ∉ xs := (List.nodup_cons.mp (List.nodup_append.mp hnd).2.1).1
      obtain ⟨s₁, hrun, hr₁, -, -, hkeep, hempty⟩ :=
        kernelThread_procList hr hfresh (kstack p)
      have ht₁ : ThreadLists s₁ := by
        intro q
        by_cases hq : q = p
        · exact ⟨[], hq ▸ hempty⟩
        · rw [hkeep q hq]
          exact ht q
      obtain ⟨s', hs', hr', ht'⟩ := ih hr₁ ht₁ hnd
      refine ⟨s', ?_, hr', ht'⟩
      rw [kernelThreads, List.foldlM_cons, hrun]
      exact hs'

/-! ## `schedule` -/

/-- `schedule` leaves the process list, `current` and the memory to free
    alone. -/
theorem schedule_frame {fuel : Nat} {rand : Nat → Nat} {s s' : State}
    {d : Option Nat} (h : schedule fuel rand s = some (s', d)) :
    s'.link = s.link ∧ s'.current = s.current ∧ s'.freed = s.freed := by
  obtain ⟨c, -, h⟩ := Option.bind_eq_some_iff.mp h
  obtain ⟨run, -, h⟩ := Option.bind_eq_some_iff.mp h
  cases run with
  | none =>
      obtain ⟨rfl, -⟩ := Prod.mk.inj (Option.some.inj h)
      exact ⟨rfl, rfl, rfl⟩
  | some run =>
      obtain ⟨t, -, h⟩ := Option.bind_eq_some_iff.mp h
      obtain ⟨rfl, -⟩ := Prod.mk.inj (Option.some.inj h)
      exact ⟨rfl, rfl, rfl⟩

/-- On a well-formed thread list `schedule` gets to its end. -/
theorem schedule_returns {s : State} {c : Nat} {ts : List Nat} (rand : Nat → Nat)
    (hcur : s.current = some c)
    (hr : Ring (s.proc c).threads .threadList
      (ts.map SharixThread.Addr.threadLink)) {fuel : Nat} (hfuel : ts.length < fuel) :
    ∃ s' d, schedule fuel rand s = some (s', d) := by
  have hnull := hr.nonNull
  rw [List.mem_cons, not_or] at hnull
  obtain ⟨r, hpick, -, hmem⟩ := SharixThread.pickFrom_chain rand (k := 0) none
    hr.linked (Ne.symm hnull.1) hnull.2 hr.head_notMem (by rwa [List.length_map])
  rw [schedule, hcur]
  simp only [Option.bind_eq_bind, Option.bind_some, hpick]
  cases r with
  | none => exact ⟨_, _, rfl⟩
  | some a =>
      rcases hmem a rfl with h | h
      · cases h
      · obtain ⟨t, -, rfl⟩ := List.mem_map.mp h
        exact ⟨_, _, rfl⟩

/-! ## A process and its child -/

/-- The process 1 has made the process 2, which runs.  Process 0 is
    `idleproc`, which `proc_init` does not link. -/
def childState : State where
  link
    | .procList => ⟨.listLink 1, .listLink 2⟩
    | .listLink 2 => ⟨.procList, .listLink 1⟩
    | .listLink 1 => ⟨.listLink 2, .procList⟩
    | _ => ⟨.null, .null⟩
  proc p :=
    { pid := if p = 0 then 0 else 1
      needResched := 0
      kstack := 4096 * p
      parent := if p = 0 then none else some (p - 1)
      threads := fun _ => ⟨.threadList, .threadList⟩ }
  current := some 2
  tid := fun _ => 0
  currentthread := none
  freed := []

theorem child_procList : ProcList childState [2, 1] :=
  ⟨by decide, by decide, by simp [childState, Link]⟩

theorem child_threadLists : ThreadLists childState :=
  fun _ => ⟨[], ⟨by decide, by decide, by simp [childState, Link]⟩⟩

/-! ## `do_exit` -/

/-- The entry is met on the way along `next` from the list's head. -/
def OnList (s : State) (p : Nat) : Prop :=
  Relation.ReflTransGen (fun a b => (s.link a).next = b) .procList (.listLink p)

/-- Following `next` never leaves the ring. -/
theorem ProcList.onList {s : State} {xs : List Nat} (hr : ProcList s xs) {p : Nat}
    (h : OnList s p) : p ∈ xs := by
  have hstay : ∀ a, Relation.ReflTransGen (fun a b => (s.link a).next = b)
      .procList a → a ∈ Addr.procList :: xs.map Addr.listLink := by
    intro a ha
    induction ha with
    | refl => exact List.mem_cons_self ..
    | tail _ hab ih =>
        subst hab
        obtain ⟨l, r, hsplit⟩ := List.append_of_mem ih
        -- the successor stands right behind the node, or is the head again
        have hc := Ring.linked hr
        rw [hsplit, List.append_assoc, List.cons_append] at hc
        obtain ⟨b, t, hbt⟩ : ∃ b t, r ++ [Addr.procList] = b :: t :=
          List.exists_cons_of_ne_nil (by simp)
        rw [hbt, List.isChain_append_cons_cons] at hc
        rw [hc.2.1.1]
        have hb : b ∈ r ++ [Addr.procList] := by rw [hbt]; exact List.mem_cons_self ..
        rcases List.mem_append.mp hb with hb | hb
        · rw [hsplit]
          exact List.mem_append_right l (List.mem_cons_of_mem _ hb)
        · rw [List.mem_singleton.mp hb]
          exact List.mem_cons_self ..
  simpa using hstay _ h

/-- What `do_exit` is for: the exiting process `c` is off the list and every
    other process is on it in the same order, its stack and its structure are
    freed, and the parent runs. -/
structure Exited (xs : List Nat) (c : Nat) (s s' : State) : Prop where
  procList : ProcList s' (xs.erase c)
  unreachable : ¬ OnList s' c
  freed : s'.freed = s.freed ++ [.stack (s.proc c).kstack, .proc c]
  current : s'.current = (s.proc c).parent

/-- A call that returns has unlinked the parent. -/
theorem doExit_link {fuel : Nat} {rand : Nat → Nat} {s s' : State} {c : Nat}
    {d : Option Nat} (hcur : s.current = some c)
    (h : doExit fuel rand s = some (s', d)) :
    ∃ p, (s.proc c).parent = some p ∧
      s'.link = deleted s.link (.listLink p) ∧ s'.current = some p := by
  rw [doExit, doExitThread, hcur] at h
  simp only [Option.bind_eq_bind, Option.bind_some] at h
  obtain ⟨link, hdel, h⟩ := Option.bind_eq_some_iff.mp h
  obtain ⟨hlink, hcurrent, -⟩ := schedule_frame h
  cases hp : (s.proc c).parent with
  | none =>
      rw [hp] at hdel
      cases hdel
  | some p =>
      rw [hp] at hdel hcurrent
      rw [listDel_eq] at hdel
      split at hdel
      · cases hdel
      · cases hdel
        exact ⟨p, rfl, hlink, hcurrent⟩

/-- With a parent whose links are those of the exiting process, the call
    returns and does what it is for. -/
theorem doExit_of_links {s : State} {l r : List Nat} {c p : Nat}
    (hr : ProcList s (l ++ c :: r)) (hcur : s.current = some c)
    (hp : (s.proc c).parent = some p)
    (hlinks : s.link (.listLink p) = s.link (.listLink c)) (rand : Nat → Nat)
    {ts : List Nat} (hts : Ring (s.proc p).threads .threadList
      (ts.map SharixThread.Addr.threadLink)) :
    ∃ fuel s' d, doExit fuel rand s = some (s', d) ∧
      Exited (l ++ c :: r) c s s' := by
  have hmap : Ring s.link .procList
      (l.map Addr.listLink ++ .listLink c :: r.map Addr.listLink) := by
    rw [← List.map_cons, ← List.map_append]
    exact hr
  obtain ⟨m, hdel, hring, -⟩ := listDel_ring hmap
  -- `list_del` reads no more of its argument than the two links
  have hdeleted : deleted s.link (.listLink p) = deleted s.link (.listLink c) := by
    unfold deleted
    rw [hlinks]
  have hsame : listDel s.link (.listLink p) = some m := by
    rw [listDel_eq, hlinks, hdeleted]
    rw [listDel_eq] at hdel
    simpa [NULL, Nullable.null] using hdel
  have herase : (l ++ c :: r).erase c = l ++ r := by
    have hcl : c ∉ l := fun hm =>
      (List.nodup_append.mp hr.procs_nodup).2.2 c hm c (List.mem_cons_self ..) rfl
    rw [List.erase_append_right _ hcl, List.erase_cons_head]
  have hcr : c ∉ l ++ r :=
    (List.nodup_cons.mp (List.perm_middle.nodup_iff.mp hr.procs_nodup)).1
  obtain ⟨s', d, hrun⟩ := schedule_returns (c := p) rand rfl (s := { s with
    link := m, current := some p
    freed := s.freed ++ [.stack (s.proc c).kstack] ++ [.proc c] }) hts
    (Nat.lt_succ_self _)
  obtain ⟨h1, h2, h3⟩ := schedule_frame hrun
  have hlist : ProcList s' (l ++ r) := by
    rw [ProcList, h1, List.map_append]
    exact hring
  refine ⟨ts.length.succ, s', d, ?_, ?_, ?_, ?_, ?_⟩
  · rw [doExit, doExitThread, hcur]
    simp only [Option.bind_eq_bind, Option.bind_some, kfree, hp, linkOf, hsame]
    exact hrun
  · rw [herase]
    exact hlist
  · exact fun h => hcr (hlist.onList h)
  · rw [h3, List.append_assoc]
    rfl
  · rw [h2, hp]

/-- Where the call does what it is for, the parent's links are those of the
    exiting process: only `list_del` changes links, and the exiting process's
    predecessor and successor now point at each other. -/
theorem links_of_doExit {fuel : Nat} {rand : Nat → Nat} {s s' : State}
    {l r : List Nat} {c : Nat} {d : Option Nat} (hr : ProcList s (l ++ c :: r))
    (hcur : s.current = some c) (h : doExit fuel rand s = some (s', d))
    (hlist : ProcList s' (l ++ r)) :
    ∃ p, (s.proc c).parent = some p ∧
      s.link (.listLink p) = s.link (.listLink c) := by
  obtain ⟨p, hp, hlink, -⟩ := doExit_link hcur h
  refine ⟨p, hp, ?_⟩
  rw [ProcList, List.map_append, hlink] at hlist
  rw [ProcList, List.map_append, List.map_cons] at hr
  obtain ⟨l', a, hl⟩ : ∃ l' a, Addr.procList :: l.map Addr.listLink = l' ++ [a] :=
    ⟨_, _, (List.dropLast_append_getLast (by simp)).symm⟩
  obtain ⟨b, r', hb⟩ : ∃ b r', r.map Addr.listLink ++ [Addr.procList] = b :: r' :=
    List.exists_cons_of_ne_nil (by simp)
  obtain ⟨ham, hbm⟩ := seam_mem hl hb
  obtain ⟨⟨hanext, hcprev⟩, hcnext, hbprev⟩ := hr.at_node hl hb
  obtain ⟨hab, hba⟩ := hlist.at_seam hl hb
  have hne : .listLink c ≠ b := (hr.ne_node hbm).symm
  have hna : .listLink c ≠ a := (hr.ne_node ham).symm
  -- `a->next` was the exiting process and is `b`, `b->prev` was it and is `a`
  have hnext : (s.link (.listLink p)).next = b := by
    simp only [deleted, hanext] at hab
    split at hab
    · exact hab
    · exact absurd hab hne
  have hprev : (s.link (.listLink p)).prev = a := by
    simp only [deleted, hbprev] at hba
    split at hba
    · exact hba
    · exact absurd hba hna
  calc s.link (.listLink p) = ⟨a, b⟩ := by rw [← hprev, ← hnext]
    _ = s.link (.listLink c) := by rw [← hcprev, ← hcnext]

/-- On the list only a process itself has its links. -/
theorem ProcList.link_injective {s : State} {xs : List Nat} (hr : ProcList s xs)
    {p c : Nat} (hp : p ∈ xs) (hc : c ∈ xs)
    (h : s.link (.listLink p) = s.link (.listLink c)) : p = c := by
  have hprev : ∀ q ∈ xs, (s.link (s.link (.listLink q)).prev).next = .listLink q := by
    intro q hq
    obtain ⟨l, r, rfl⟩ := List.append_of_mem hq
    rw [ProcList, List.map_append, List.map_cons] at hr
    obtain ⟨l', a, hl⟩ : ∃ l' a, Addr.procList :: l.map Addr.listLink = l' ++ [a] :=
      ⟨_, _, (List.dropLast_append_getLast (by simp)).symm⟩
    obtain ⟨b, r', hb⟩ : ∃ b r', r.map Addr.listLink ++ [Addr.procList] = b :: r' :=
      List.exists_cons_of_ne_nil (by simp)
    obtain ⟨hab, -⟩ := hr.at_node hl hb
    rw [hab.2]
    exact hab.1
  have hpc : Addr.listLink p = Addr.listLink c := by
    rw [← hprev p hp, ← hprev c hc, h]
  exact Addr.listLink.inj hpc

/-- A process whose parent is another process of the list never leaves it. -/
theorem doExit_parent_on_list {s : State} {xs : List Nat} {c p : Nat}
    (hr : ProcList s xs) (hcur : s.current = some c) (hc : c ∈ xs)
    (hp : (s.proc c).parent = some p) (hmem : p ∈ xs) (hne : p ≠ c)
    {fuel : Nat} {rand : Nat → Nat} {s' : State} {d : Option Nat}
    (h : doExit fuel rand s = some (s', d)) : ¬ Exited xs c s s' := by
  intro hex
  obtain ⟨l, r, rfl⟩ := List.append_of_mem hc
  have hcl : c ∉ l := fun hm =>
    (List.nodup_append.mp hr.procs_nodup).2.2 c hm c (List.mem_cons_self ..) rfl
  have hlist := hex.procList
  rw [List.erase_append_right _ hcl, List.erase_cons_head] at hlist
  obtain ⟨q, hq, hlinks⟩ := links_of_doExit hr hcur h hlist
  obtain rfl : p = q := Option.some.inj (hp.symm.trans hq)
  exact hne (hr.link_injective hmem hc hlinks)

/-- **AN EXIT UNLINKS THE EXITING PROCESS ONLY THROUGH A COPY OF ITS LINKS**:
    for every process list and every parent, `do_exit` does what it is for if
    and only if the parent's entry points to the very neighbours of the exiting
    process. -/
theorem do_exit_iff {s : State} {xs : List Nat} {c : Nat} (hr : ProcList s xs)
    (hcur : s.current = some c) (hc : c ∈ xs) (hts : ThreadLists s)
    (rand : Nat → Nat) :
    (∃ fuel s' d, doExit fuel rand s = some (s', d) ∧ Exited xs c s s') ↔
      ∃ p, (s.proc c).parent = some p ∧
        s.link (.listLink p) = s.link (.listLink c) := by
  obtain ⟨l, r, rfl⟩ := List.append_of_mem hc
  have hcl : c ∉ l := fun hm =>
    (List.nodup_append.mp hr.procs_nodup).2.2 c hm c (List.mem_cons_self ..) rfl
  constructor
  · rintro ⟨fuel, s', d, hrun, hex⟩
    have hlist := hex.procList
    rw [List.erase_append_right _ hcl, List.erase_cons_head] at hlist
    exact links_of_doExit hr hcur hrun hlist
  · rintro ⟨p, hp, hlinks⟩
    obtain ⟨ts, hring⟩ := hts p
    exact doExit_of_links hr hcur hp hlinks rand hring

theorem do_exit_iff_child :
    (∃ fuel s' d, doExit fuel (fun _ => 0) childState = some (s', d) ∧
        Exited [2, 1] 2 childState s') ↔
      ∃ p, (childState.proc 2).parent = some p ∧
        childState.link (.listLink p) = childState.link (.listLink 2) :=
  do_exit_iff child_procList rfl (by decide) child_threadLists (fun _ => 0)

/-- The child exits and its parent is off the list. -/
theorem not_do_exit :
    ¬ ∀ (s : State) (xs : List Nat) (c : Nat), ProcList s xs →
      s.current = some c → c ∈ xs → ThreadLists s → ∀ rand : Nat → Nat,
      ∃ fuel s' d, doExit fuel rand s = some (s', d) ∧ Exited xs c s s' := by
  intro hall
  obtain ⟨fuel, s', d, hrun, hex⟩ := hall childState [2, 1] 2 child_procList rfl
    (by decide) child_threadLists (fun _ => 0)
  exact doExit_parent_on_list child_procList rfl (by decide) (p := 1) rfl
    (by decide) (by decide) hrun hex

/-! ## `find_proc` -/

/-- The first process decides: a wrong `pid` is tested again and again. -/
theorem findFrom_first (s : State) (pid : Int) (p : Nat) :
    ∀ fuel, findFrom s pid (fuel + 1) (.listLink p)
      = if (s.proc p).pid = pid then some (some p) else none := by
  intro fuel
  induction fuel with
  | zero =>
      rw [findFrom, if_neg Addr.noConfusion]
      rfl
  | succ fuel ih =>
      rw [findFrom, if_neg Addr.noConfusion]
      simp only [toProc, Option.bind_eq_bind, Option.bind_some, ih]
      split <;> rfl

theorem findProc_nil {s : State} (hr : ProcList s []) (pid : Int) (fuel : Nat) :
    findProc (fuel + 1) pid s = some none := by
  rw [findProc, Ring.listNext_nil hr]
  rfl

theorem findProc_cons {s : State} {p : Nat} {xs : List Nat}
    (hr : ProcList s (p :: xs)) (pid : Int) (fuel : Nat) :
    findProc (fuel + 1) pid s = if (s.proc p).pid = pid then some (some p) else none := by
  rw [findProc, Ring.listNext_cons hr]
  exact findFrom_first s pid p fuel

/-- **ONLY THE FIRST PROCESS IS EVER FOUND**: `find_proc` ends with the first
    process that has the `pid`, or with `NULL` where there is none, if and only
    if the list is empty or its first process has the `pid`. -/
theorem find_proc_iff {s : State} {xs : List Nat} (hr : ProcList s xs) (pid : Int) :
    (∃ fuel, findProc fuel pid s
        = some (xs.find? fun p => decide ((s.proc p).pid = pid))) ↔
      ∀ p, xs.head? = some p → (s.proc p).pid = pid := by
  cases xs with
  | nil => exact iff_of_true ⟨1, findProc_nil hr pid 0⟩ (by simp)
  | cons p xs =>
      constructor
      · rintro ⟨fuel, hrun⟩ q hq
        obtain rfl : p = q := Option.some.inj hq
        cases fuel with
        | zero =>
            rw [findProc, Ring.listNext_cons hr] at hrun
            cases hrun
        | succ fuel =>
            rw [findProc_cons hr] at hrun
            by_contra hpid
            rw [if_neg hpid] at hrun
            cases hrun
      · intro hpid
        have hp : (s.proc p).pid = pid := hpid p rfl
        refine ⟨1, ?_⟩
        rw [findProc_cons hr, if_pos hp, List.find?_cons_of_pos (by simpa using hp)]

theorem find_proc_iff_child :
    (∃ fuel, findProc fuel 1 childState = some
        ([2, 1].find? fun p => decide ((childState.proc p).pid = 1))) ↔
      ∀ p, [2, 1].head? = some p → (childState.proc p).pid = 1 :=
  find_proc_iff child_procList 1

/-- Nobody has the `pid` 7 and the search does not end. -/
theorem not_find_proc :
    ¬ ∀ (s : State) (xs : List Nat) (pid : Int), ProcList s xs →
      ∃ fuel, findProc fuel pid s
        = some (xs.find? fun p => decide ((s.proc p).pid = pid)) := by
  intro hall
  obtain ⟨fuel, hrun⟩ := hall childState [2, 1] 7 child_procList
  cases fuel with
  | zero => cases hrun
  | succ fuel =>
      rw [findProc_cons child_procList] at hrun
      cases hrun

end SharixProc
