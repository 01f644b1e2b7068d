import BlockScope.Proofs.Analysis.Simulation
import BlockScope.Proofs.Program.Parsing
/-!
# Resolution method by method

The first pass takes the methods of a program one by one (`Program.jobs`). `Ran` is such a run with the scope
that each method got. From it follow the scopes that the classes list in the end (`Ran.scopeOf`) and, for the
whole pass, that it takes the steps of the program's events (`steps_of_resolve`).
-/
namespace BlockScope
open Stage

/-- A method with the place of its class and its own place there. -/
structure Job where
  cls : Nat
  place : Nat
  method : Method

/-- The methods of a class, the first of them at this place. -/
def jobsFrom (cls start : Nat) (ms : List Method) : List Job := (ms.zipIdx start).map fun (m, place) => ⟨cls, place, m⟩

/-- All methods in the order of the pass. -/
def Program.jobs (p : Program) : List Job := p.classes.zipIdx.flatMap fun (c, cls) => jobsFrom cls 0 c.methods

def Job.events (p : Program) (job : Job) : List Event := p.methodEvents job.cls job.place job.method

/-- Lists the scope of a method in its class. -/
def Job.enter (job : Job) (scope : ScopeId) (a : Analysis) : Analysis :=
  a.modifyClass job.cls (ClassInfo.addMethod job.method.classSide scope)

/-- A run over some methods, each with the scope it got. -/
inductive Ran (p : Program) : Analysis → List (Job × ScopeId) → Analysis → Prop where
  | nil {a : Analysis} : Ran p a [] a
  | cons {a b : Analysis} {w w' : Work} {job : Job} {scope : ScopeId} {info : ClassInfo} {t : ScopeTree}
    {rest : List (Job × ScopeId)} (hinfo : a.classes[job.cls]? = some info)
    (hopens : a.scopes.Opens (info.side job.method.classSide) .method job.method.code scope t)
    (hw : w.analysis = job.enter scope { a with scopes := t })
    (hbody : Runs (forM job.method.body (resolveWithin p.arena (p.arena.size + 1) scope)) w ⟨⟩ w')
    (hrest : Ran p w'.analysis rest b) : Ran p a ((job, scope) :: rest) b

section
variable {p : Program} {w w' : Work} {u : Unit} {cls : Nat} {m : Method} {c : ClassDefinition} {a b : Analysis}

theorem sim_body {scopeOf : Opener → Option ScopeId} {o : Opener} {scope : ScopeId} (hf : p.Forest) (hm : m ∈ p.methods) :
    Sim p scopeOf o scope (forM m.body (resolveWithin p.arena (p.arena.size + 1) scope))
      (m.body.flatMap (p.arena.eventsOf o .plain)) := by
  apply Sim.forM
  intro x hx
  obtain ⟨lo, hi, hhi, hfills⟩ := hf.fills hm
  have := hfills.row_mem hx
  exact sim_resolveWithin hf _ o scope x (by omega)

theorem Ran.append {b' : Analysis} {xs ys : List (Job × ScopeId)} (h : Ran p a xs b) (h' : Ran p b ys b') :
    Ran p a (xs ++ ys) b' := by
  induction h with
  | nil => exact h'
  | cons hinfo hopens hw hbody _ ih => exact .cons hinfo hopens hw hbody (ih h')

/-- What a run makes of each class, whose methods are all among those of the program. -/
theorem Ran.classes {jobs : List (Job × ScopeId)} (hf : p.Forest) (h : Ran p a jobs b)
    (hjobs : ∀ job ∈ jobs, job.1.method ∈ p.methods) (i : Nat) :
    b.classes[i]? = (a.classes[i]?).map fun info =>
      (jobs.filter (·.1.cls = i)).foldl (fun c x => c.addMethod x.1.method.classSide x.2) info := by
  induction h with
  | nil => simp
  | @cons a b w w' job scope info t rest hinfo hopens hw hbody _ ih =>
    have hsim : Sim p (fun _ => none) (.method job.cls job.place) scope _ _ := sim_body hf (hjobs (job, scope) (by simp))
    rw [ih fun x hx => hjobs x (List.mem_cons_of_mem _ hx), hsim.classes w w' hbody, hw]
    simp only [Job.enter, Analysis.getElem?_modifyClass, Option.map_map]
    by_cases h : job.cls = i <;> simp [h, Function.comp_def]

theorem Ran.size_classes {jobs : List (Job × ScopeId)} (hf : p.Forest) (h : Ran p a jobs b)
    (hjobs : ∀ job ∈ jobs, job.1.method ∈ p.methods) : b.classes.size = a.classes.size := by
  induction h with
  | nil => rfl
  | @cons a b w w' job scope info t rest hinfo hopens hw hbody _ ih =>
    have hsim : Sim p (fun _ => none) (.method job.cls job.place) scope _ _ := sim_body hf (hjobs (job, scope) (by simp))
    rw [ih fun x hx => hjobs x (List.mem_cons_of_mem _ hx), hsim.classes w w' hbody, hw]
    simp [Job.enter, Analysis.modifyClass]

/-! ## From runs of the stages -/

theorem runs_resolveMethod {info : ClassInfo} (hinfo : w.analysis.classes[cls]? = some info)
    (h : Runs (resolveMethod p.arena cls m) w u w') (place : Nat) :
    ∃ scope, Ran p w.analysis [(⟨cls, place, m⟩, scope)] w'.analysis := by
  unfold resolveMethod at h
  rw [runs_analysis_bind] at h
  simp only [hinfo, Runs.bind_iff, runs_tell, runs_onScopes, runs_update] at h
  obtain ⟨_, _, rfl, _, _, ⟨rfl, rfl⟩, _, _, rfl, h⟩ := h
  obtain ⟨mid, t, w₁, hparams, htemps, e₁, hbody⟩ := runs_enterScope h
  exact ⟨_, .cons hinfo ⟨rfl, mid, hparams, htemps⟩ e₁ hbody .nil⟩

theorem ran_methods {ms : List Method} (hf : p.Forest) (hms : ∀ m ∈ ms, m ∈ p.methods) (place : Nat)
    (hcls : cls < w.analysis.classes.size) (h : Runs (forM ms (resolveMethod p.arena cls)) w u w') :
    ∃ jobs, jobs.map (·.1) = jobsFrom cls place ms ∧ Ran p w.analysis jobs w'.analysis := by
  induction ms generalizing w place with
  | nil =>
    obtain rfl := Runs.forM_nil_iff.1 h
    exact ⟨[], rfl, .nil⟩
  | cons m ms ih =>
    obtain ⟨w₁, h₁, h₂⟩ := Runs.forM_cons_iff.1 h
    obtain ⟨scope, hran⟩ := runs_resolveMethod (Array.getElem?_eq_getElem hcls) h₁ place
    have hsize := hran.size_classes hf (by simp [hms])
    obtain ⟨jobs, hjobs, hrest⟩ := ih (fun m hm => hms m (List.mem_cons_of_mem _ hm)) (place + 1) (by omega) h₂
    exact ⟨(⟨cls, place, m⟩, scope) :: jobs, by simp [jobsFrom, hjobs], hran.append hrest⟩

theorem ran_classes {cs : List ClassDefinition} (hf : p.Forest) (hcs : ∀ c ∈ cs, ∀ m ∈ c.methods, m ∈ p.methods) (start : Nat)
    (hsize : start + cs.length ≤ w.analysis.classes.size)
    (h : Runs (forM (cs.zipIdx start) (resolveClass p.arena)) w u w') :
    ∃ jobs, jobs.map (·.1) = ((cs.zipIdx start).flatMap fun (c, cls) => jobsFrom cls 0 c.methods) ∧
      Ran p w.analysis jobs w'.analysis := by
  induction cs generalizing w start with
  | nil =>
    obtain rfl := Runs.forM_nil_iff.1 h
    exact ⟨[], rfl, .nil⟩
  | cons c cs ih =>
    rw [List.length_cons] at hsize
    rw [List.zipIdx_cons] at h
    obtain ⟨w₁, h₁, h₂⟩ := Runs.forM_cons_iff.1 h
    unfold resolveClass at h₁
    simp only [List.forM_eq_forM, Runs.bind_iff, runs_tell] at h₁
    obtain ⟨_, _, rfl, h₁⟩ := h₁
    have hms : ∀ m ∈ c.methods, m ∈ p.methods := hcs c (by simp)
    have hstart : start < (w.tell [.resolving c.name]).analysis.classes.size := by
      have : (w.tell [.resolving c.name]).analysis = w.analysis := rfl
      rw [this]
      omega
    obtain ⟨jobs, hjobs, hran⟩ := ran_methods hf hms 0 hstart h₁
    have hmem : ∀ job ∈ jobs, job.1.method ∈ p.methods := by
      intro job hjob
      have hjob' : job.1 ∈ jobsFrom start 0 c.methods := hjobs ▸ List.mem_map_of_mem hjob
      obtain ⟨⟨m, place⟩, hm, hj⟩ := List.mem_map.1 hjob'
      rw [← hj]
      exact hms m (List.fst_mem_of_mem_zipIdx hm)
    have hsize' : w₁.analysis.classes.size = w.analysis.classes.size := hran.size_classes hf hmem
    obtain ⟨rest, hrest, hran'⟩ := ih (fun c hc => hcs c (List.mem_cons_of_mem _ hc)) (start + 1) (by omega) h₂
    exact ⟨jobs ++ rest, by simp [hjobs, hrest], hran.append hran'⟩

/-! ## The scopes of methods -/

theorem foldl_addMethod (l : List (Job × ScopeId)) (info : ClassInfo) :
    (l.foldl (fun c x => c.addMethod x.1.method.classSide x.2) info).instanceMethods =
        info.instanceMethods ++ (l.filter (!·.1.method.classSide)).map (·.2) ∧
      (l.foldl (fun c x => c.addMethod x.1.method.classSide x.2) info).classMethods =
        info.classMethods ++ (l.filter (·.1.method.classSide)).map (·.2) := by
  induction l generalizing info with
  | nil => simp
  | cons x l ih =>
    obtain ⟨hi, hc⟩ := ih (info.addMethod x.1.method.classSide x.2)
    rw [List.foldl_cons, hi, hc]
    cases hside : x.1.method.classSide <;> simp [ClassInfo.addMethod, hside]

theorem jobsFrom_append (cls start : Nat) (ms ms' : List Method) :
    jobsFrom cls start (ms ++ ms') = jobsFrom cls start ms ++ jobsFrom cls (start + ms.length) ms' := by
  simp [jobsFrom, List.zipIdx_append]

theorem mem_jobsFrom {start : Nat} {ms : List Method} {job : Job} (h : job ∈ jobsFrom cls start ms) :
    job.cls = cls ∧ job.method ∈ ms := by
  obtain ⟨⟨m, place⟩, hm, rfl⟩ := List.mem_map.1 h
  exact ⟨rfl, List.fst_mem_of_mem_zipIdx hm⟩

theorem map_jobsFrom (cls start : Nat) (ms : List Method) : (jobsFrom cls start ms).map Job.method = ms := by
  simp only [jobsFrom, List.map_map, Function.comp_def]
  exact List.zipIdx_map_fst start ms

theorem getElem?_jobsFrom {i : Nat} {ms : List Method} {job : Job} (h : (jobsFrom cls 0 ms)[i]? = some job) :
    job.cls = cls ∧ job.place = i ∧ ms[i]? = some job.method := by
  simp only [jobsFrom, List.getElem?_map, List.getElem?_zipIdx, Option.map_map, Option.map_eq_some_iff] at h
  obtain ⟨m, hm, rfl⟩ := h
  exact ⟨rfl, by simp, hm⟩

/-- Instance methods come first in a class, and the scopes of either side are listed in the order of its methods. -/
theorem sides_of_jobs {l : List (Job × ScopeId)} {info : ClassInfo} (hs : Sided c.instanceMethods c.classMethods)
    (hl : l.map (·.1) = jobsFrom cls 0 c.methods) (hi : info.instanceMethods = []) (hc : info.classMethods = []) :
    ∃ l₁ l₂, l = l₁ ++ l₂ ∧ l₁.map (·.1.method) = c.instanceMethods ∧ l₂.map (·.1.method) = c.classMethods ∧
      (l.foldl (fun c x => c.addMethod x.1.method.classSide x.2) info).instanceMethods = l₁.map (·.2) ∧
      (l.foldl (fun c x => c.addMethod x.1.method.classSide x.2) info).classMethods = l₂.map (·.2) := by
  rw [ClassDefinition.methods, jobsFrom_append] at hl
  obtain ⟨l₁, l₂, rfl, h₁, h₂⟩ := List.map_eq_append_iff.1 hl
  have hl₁ : ∀ x ∈ l₁, x.1.method.classSide = false := by
    intro x hx
    exact hs.instances _ (mem_jobsFrom (h₁ ▸ List.mem_map_of_mem hx)).2
  have hl₂ : ∀ x ∈ l₂, x.1.method.classSide = true := by
    intro x hx
    exact hs.classes _ (mem_jobsFrom (h₂ ▸ List.mem_map_of_mem hx)).2
  obtain ⟨e₁, e₂⟩ := foldl_addMethod (l₁ ++ l₂) info
  have f₁ : (l₁ ++ l₂).filter (!·.1.method.classSide) = l₁ := by
    rw [List.filter_append, List.filter_eq_self.2 (by simpa using hl₁), List.filter_eq_nil_iff.2 (by simpa using hl₂),
      List.append_nil]
  have f₂ : (l₁ ++ l₂).filter (·.1.method.classSide) = l₂ := by
    rw [List.filter_append, List.filter_eq_nil_iff.2 (by simpa using hl₁), List.filter_eq_self.2 (by simpa using hl₂),
      List.nil_append]
  refine ⟨l₁, l₂, rfl, ?_, ?_, by rw [e₁, f₁, hi, List.nil_append], by rw [e₂, f₂, hc, List.nil_append]⟩
  · have hmethods := congrArg (List.map Job.method) h₁
    rwa [List.map_map, map_jobsFrom] at hmethods
  · have hmethods := congrArg (List.map Job.method) h₂
    rwa [List.map_map, map_jobsFrom] at hmethods

theorem methods_of_jobs {l : List (Job × ScopeId)} {info : ClassInfo} (hs : Sided c.instanceMethods c.classMethods)
    (hl : l.map (·.1) = jobsFrom cls 0 c.methods) (hi : info.instanceMethods = []) (hc : info.classMethods = []) :
    (l.foldl (fun c x => c.addMethod x.1.method.classSide x.2) info).methods = l.map (·.2) := by
  obtain ⟨l₁, l₂, rfl, -, -, e₁, e₂⟩ := sides_of_jobs hs hl hi hc
  rw [ClassInfo.methods, e₁, e₂, List.map_append]

theorem filter_jobsFrom (c : ClassDefinition) (k i : Nat) :
    (jobsFrom k 0 c.methods).filter (·.cls = i) = if k = i then jobsFrom k 0 c.methods else [] := by
  by_cases hk : k = i
  · rw [if_pos hk]
    exact List.filter_eq_self.2 fun job hjob => by simp [(mem_jobsFrom hjob).1, hk]
  · rw [if_neg hk]
    exact List.filter_eq_nil_iff.2 fun job hjob => by simp [(mem_jobsFrom hjob).1, hk]

/-- The jobs of one class are those of its methods. -/
theorem filter_jobs (cs : List ClassDefinition) (start i : Nat) :
    ((cs.zipIdx start).flatMap fun (c, cls) => jobsFrom cls 0 c.methods).filter (·.cls = start + i) =
      (cs[i]?.map fun c => jobsFrom (start + i) 0 c.methods).getD [] := by
  induction cs generalizing start i with
  | nil => rfl
  | cons c cs ih =>
    rw [List.zipIdx_cons, List.flatMap_cons, List.filter_append, filter_jobsFrom]
    cases i with
    | zero =>
      have hrest : ((cs.zipIdx (start + 1)).flatMap fun (c, cls) => jobsFrom cls 0 c.methods).filter
          (·.cls = start + 0) = [] := by
        apply List.filter_eq_nil_iff.2
        intro job hjob
        obtain ⟨⟨c, cls⟩, hc, hjob⟩ := List.mem_flatMap.1 hjob
        have := List.le_snd_of_mem_zipIdx hc
        have := (mem_jobsFrom hjob).1
        simp only [decide_eq_true_eq]
        omega
      rw [hrest]
      simp
    | succ i =>
      have := ih (start + 1) i
      rw [show start + 1 + i = start + (i + 1) by omega] at this
      rw [this, if_neg (by omega)]
      simp

/-- In the end every method has the scope it got. -/
theorem Ran.scopeOf {jobs : List (Job × ScopeId)} (hf : p.Forest) (hsided : ∀ c ∈ p.classes, Sided c.instanceMethods c.classMethods)
    (h : Ran p a jobs b) (hjobs : jobs.map (·.1) = p.jobs) (hmem : ∀ x ∈ jobs, x.1.method ∈ p.methods)
    (hempty : ∀ (i : Nat) (info : ClassInfo), a.classes[i]? = some info → info.instanceMethods = [] ∧ info.classMethods = [])
    (hsize : a.classes.size = p.classes.length) {x : Job × ScopeId} (hx : x ∈ jobs) :
    b.scopeOf? (.method x.1.cls x.1.place) = some x.2 := by
  have hl : (jobs.filter (·.1.cls = x.1.cls)).map (·.1) =
      (p.classes[x.1.cls]?.map fun c => jobsFrom x.1.cls 0 c.methods).getD [] := by
    have := filter_jobs p.classes 0 x.1.cls
    rw [Nat.zero_add] at this
    rw [← this, ← Program.jobs, ← hjobs, List.filter_map]
    rfl
  have hxl : x ∈ jobs.filter (·.1.cls = x.1.cls) := List.mem_filter.2 ⟨hx, by simp⟩
  obtain ⟨j, hj⟩ := List.getElem?_of_mem hxl
  have hj' := congrArg (·[j]?) hl
  simp only [List.getElem?_map, hj, Option.map_some] at hj'
  cases hc : p.classes[x.1.cls]? with
  | none => simp [hc] at hj'
  | some c =>
    rw [hc, Option.map_some, Option.getD_some] at hj' hl
    obtain ⟨-, hplace, -⟩ := getElem?_jobsFrom hj'.symm
    have hlt : x.1.cls < a.classes.size := by
      rw [hsize]
      exact (List.getElem?_eq_some_iff.1 hc).1
    obtain ⟨hi, hcm⟩ := hempty _ _ (Array.getElem?_eq_getElem hlt)
    have hb := h.classes hf hmem x.1.cls
    rw [Array.getElem?_eq_getElem hlt, Option.map_some] at hb
    simp only [Analysis.scopeOf?, hb, Option.bind_some]
    rw [methods_of_jobs (hsided c (List.mem_of_getElem? hc)) hl hi hcm, hplace, List.getElem?_map, hj, Option.map_some]

/-! ## The steps of a run -/

theorem flatMap_jobs (p : Program) : p.jobs.flatMap (Job.events p) = p.events := by
  unfold Program.jobs Program.events Program.classEvents jobsFrom
  simp only [List.flatMap_assoc, List.flatMap_map]
  rfl

theorem mem_jobs {job : Job} (h : job ∈ p.jobs) : p.method? job.cls job.place = some job.method := by
  obtain ⟨⟨c, cls⟩, hc, hjob⟩ := List.mem_flatMap.1 h
  obtain ⟨j, hj⟩ := List.getElem?_of_mem hjob
  obtain ⟨hcls, hplace, hm⟩ := getElem?_jobsFrom hj
  rw [Program.method?, hcls, hplace, List.mem_zipIdx_iff_getElem?.1 hc, Option.bind_some, hm]

theorem job_of_method {place : Nat} (h : p.method? cls place = some m) : ⟨cls, place, m⟩ ∈ p.jobs := by
  obtain ⟨c, hc, hm⟩ := Option.bind_eq_some_iff.1 h
  exact List.mem_flatMap.2 ⟨(c, cls), List.mem_zipIdx_iff_getElem?.2 hc,
    List.mem_map.2 ⟨(m, place), List.mem_zipIdx_iff_getElem?.2 hm, rfl⟩⟩

/-- Both sides of every class have a scope. -/
def Analysis.Sides (a : Analysis) : Prop :=
  ∀ (i : Nat) (info : ClassInfo), a.classes[i]? = some info →
    ∀ classSide, ∃ s, a.scopes.scope? (info.side classSide) = some s

@[simp] theorem side_addMethod (classSide side : Bool) (scope : ScopeId) (info : ClassInfo) :
    (info.addMethod classSide scope).side side = info.side side := by
  unfold ClassInfo.addMethod ClassInfo.side
  cases classSide <;> rfl

theorem Ran.frame {jobs : List (Job × ScopeId)} {id : NodeId} (hf : p.Forest) (h : Ran p a jobs b)
    (hjobs : ∀ x ∈ jobs, x.1.method ∈ p.methods) (hid : id ∉ (jobs.flatMap (·.1.events p)).filterMap Event.node?) :
    b.blockScopes.get? id = a.blockScopes.get? id := by
  induction h with
  | nil => rfl
  | @cons a b w w' job scope info t rest hinfo hopens hw hbody _ ih =>
    have hsim : Sim p (fun _ => none) (.method job.cls job.place) scope _ _ := sim_body hf (hjobs (job, scope) (by simp))
    simp only [List.flatMap_cons, List.filterMap_append, List.mem_append, not_or, Job.events, Program.methodEvents,
      List.filterMap_cons, Event.node?] at hid
    rw [ih (fun x hx => hjobs x (List.mem_cons_of_mem _ hx)) hid.2, hsim.frame w w' hbody id hid.1, hw]
    rfl

theorem Ran.steps {jobs : List (Job × ScopeId)} {scopeOf : Opener → Option ScopeId} (hf : p.Forest) (h : Ran p a jobs b)
    (hw : a.scopes.Wf) (hsides : a.Sides) (hjobs : ∀ x ∈ jobs, p.method? x.1.cls x.1.place = some x.1.method)
    (hscope : ∀ x ∈ jobs, scopeOf (.method x.1.cls x.1.place) = some x.2)
    (hnodup : ((jobs.flatMap (·.1.events p)).filterMap Event.node?).Nodup)
    (hagrees : Agrees p scopeOf b (jobs.flatMap (·.1.events p))) :
    Steps p scopeOf a (jobs.flatMap (·.1.events p)) b := by
  have hmem : ∀ x ∈ jobs, x.1.method ∈ p.methods := fun x hx => Program.Forest.mem_methods (hjobs x hx)
  induction h with
  | nil => exact .nil
  | @cons a b w w' job scope info t rest hinfo hopens hwork hbody hran ih =>
    have hsim : Sim p scopeOf (.method job.cls job.place) scope _ _ := sim_body hf (hmem (job, scope) (by simp))
    have hmem' : ∀ x ∈ rest, x.1.method ∈ p.methods := fun x hx => hmem x (List.mem_cons_of_mem _ hx)
    unfold Agrees at hagrees
    rw [List.flatMap_cons, List.filterMap_append] at hnodup hagrees
    obtain ⟨hn, hn', hdisj⟩ := List.nodup_append.1 hnodup
    have ⟨so, hso⟩ := hsides _ _ hinfo job.method.classSide
    have ⟨hw', hg, _, hentered, _⟩ := hopens.spec hw hso nofun
    have hscopes : w.analysis.scopes = t := by rw [hwork]; rfl
    -- The method opens its scope, then its body takes its own steps there.
    have hstep : Step p scopeOf a (.method job.cls job.place) w.analysis := by
      rw [hwork]
      exact .method (hjobs (job, scope) (by simp)) hinfo (hscope (job, scope) (by simp)) hso hopens
    have hagrees' : Agrees p scopeOf w'.analysis (job.method.body.flatMap (p.arena.eventsOf (.method job.cls job.place) .plain)) := by
      intro id hid hb
      rw [hagrees id (List.mem_append_left _ hid) hb]
      exact hran.frame hf hmem' fun hid' => hdisj id hid id hid' rfl
    have hsteps := hsim.steps w w' hbody (hscope (job, scope) (by simp)) (hscopes ▸ hw') (hscopes ▸ hentered.isCode) hn hagrees'
    have ⟨hw'', hg'⟩ := hsteps.wf_grows (hscopes ▸ hw')
    rw [List.flatMap_cons]
    refine (Steps.cons hstep hsteps).append (ih hw'' ?_ ?_ ?_ hn' ?_ hmem')
    · intro i info' hinfo' classSide
      rw [hsim.classes w w' hbody, hwork] at hinfo'
      simp only [Job.enter, Analysis.getElem?_modifyClass] at hinfo'
      obtain ⟨info₀, hinfo₀, rfl⟩ := Option.map_eq_some_iff.1 hinfo'
      have hside : (if job.cls = i then info₀.addMethod job.method.classSide scope else info₀).side classSide =
          info₀.side classSide := by
        split <;> simp
      obtain ⟨s, hs⟩ := hsides i info₀ hinfo₀ classSide
      rw [hside]
      exact (hg.trans (hscopes ▸ hg')).scope hs
    · exact fun x hx => hjobs x (List.mem_cons_of_mem _ hx)
    · exact fun x hx => hscope x (List.mem_cons_of_mem _ hx)
    · exact fun id hid => hagrees id (List.mem_append_right _ hid)

/-- The first pass takes the steps of the program's events, where openers have the scopes they end up with. -/
theorem steps_of_resolve {P : String → Prop} (hp : p.Parsed P) (hw : w.analysis.scopes.Wf) (hsides : w.analysis.Sides)
    (hempty : ∀ (i : Nat) (info : ClassInfo), w.analysis.classes[i]? = some info →
      info.instanceMethods = [] ∧ info.classMethods = [])
    (hsize : w.analysis.classes.size = p.classes.length) (h : Runs (resolve p) w u w') :
    Steps p w'.analysis.scopeOf? w.analysis p.events w'.analysis := by
  have hall : ∀ c ∈ p.classes, ∀ m ∈ c.methods, m ∈ p.methods := fun c hc m hm => List.mem_flatMap.2 ⟨c, hc, hm⟩
  unfold resolve at h
  rw [List.forM_eq_forM] at h
  obtain ⟨jobs, hjobs, hran⟩ := ran_classes hp.forest hall 0 (by omega) h
  have hmem : ∀ x ∈ jobs, p.method? x.1.cls x.1.place = some x.1.method := by
    intro x hx
    have hx' : x.1 ∈ p.jobs := by
      rw [Program.jobs, ← hjobs]
      exact List.mem_map_of_mem hx
    exact mem_jobs hx'
  have hevents : (jobs.flatMap fun x => x.1.events p) = p.events := by
    rw [← flatMap_jobs, Program.jobs, ← hjobs, List.flatMap_map]
  have hsteps : Steps p w'.analysis.scopeOf? w.analysis (jobs.flatMap fun x => x.1.events p) w'.analysis := hran.steps hp.forest
    hw hsides hmem (fun x hx => hran.scopeOf hp.forest hp.sided hjobs (fun x hx => Program.Forest.mem_methods (hmem x hx)) hempty hsize hx)
    (by rw [hevents]; exact hp.forest.nodup_events) (fun _ _ _ => rfl)
  rwa [hevents] at hsteps

end
end BlockScope
