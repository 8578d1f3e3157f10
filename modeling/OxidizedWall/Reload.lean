import OxidizedWall.Lib.Pool
import OxidizedWall.Load

/-!
# Concurrent reloads

Every event of the watcher in `main.rs` starts a task that reloads the certificates. The tasks
read the files one after another, while the files change, and replace the resolver at the end.

1. `installs_reloadCerts`: what a reload puts in place, as long as the files stay as they are.
2. `installs_task`: the same for a task whose reads found the files as they are at the end.
3. `reload_converges`: the resolver is up to date unless an older task comes last.
-/

namespace OxidizedWall

/-- The files, and the resolver in use. -/
structure CertWorld (tls : Tls) where
  files : KeyMap Str Bytes
  resolver : tls.Resolver

inductive FileChange
  | write (path : Str) (bytes : Bytes)
  | remove (path : Str)
  deriving DecidableEq

def FileChange.apply (files : KeyMap Str Bytes) : FileChange → KeyMap Str Bytes
  | .write path bytes => files.insert path bytes
  | .remove path => files.remove path

/-- The reloads of one configuration. An event of the watcher may come at any time: `start`. -/
def reloadSystem (tls : Tls) (vhosts : List (Str × VHostConfig)) :
    TaskSystem (CertOp tls.Resolver) CertOp.Ans (Option Unit) Unit FileChange (CertWorld tls) where
  start _ := reloadCerts tls vhosts
  call
    | .read path, w => (w.files.get path, w)
    | .update resolver, w => ((), { w with resolver := resolver })
  outside change w := { w with files := change.apply w.files }

abbrev CertPool (tls : Tls) :=
  Pool (CertOp tls.Resolver) CertOp.Ans (Option Unit) (CertWorld tls)

/-- No reload is under way. -/
def CertPool.idle {tls : Tls} (w : CertWorld tls) : CertPool tls := ⟨w, []⟩

/-- Adds to `resolver` the certificates and keys that `files` holds for the virtual hosts. -/
def addFrom (tls : Tls) (files : KeyMap Str Bytes) (vhosts : List (Str × VHostConfig))
    (resolver : tls.Resolver) : Option tls.Resolver :=
  vhosts.foldlM (fun resolver (domain, vhost) => do
    let certBytes ← files.get vhost.certPath
    let keyBytes ← files.get vhost.keyPath
    (certifiedKey tls certBytes keyBytes).bind (tls.add resolver domain)) resolver

/-- The resolver for the certificates and keys in `files`. -/
def resolverOf (tls : Tls) (files : KeyMap Str Bytes) (vhosts : List (Str × VHostConfig)) :
    Option tls.Resolver := addFrom tls files vhosts tls.new

/-! ## The program -/

section
variable {tls : Tls} {files : KeyMap Str Bytes} {vhosts : List (Str × VHostConfig)}

/-- The resolver that a program puts in place first, if it reads from `files`. -/
def installs (files : KeyMap Str Bytes) {α : Type} : CertProg tls α → Option tls.Resolver
  | .ret _ => none
  | .call (.read path) k => installs files (k (files.get path))
  | .call (.update resolver) _ => some resolver

/-- The program succeeds once it has replaced the resolver, and not before. -/
def UpdatesOnce : CertProg tls (Option Unit) → Prop
  | .ret a => a = none
  | .call (.read _) k => ∀ x, UpdatesOnce (k x)
  | .call (.update _) k => ∀ x, k x = .ret (some ())

theorem installs_addVHost {α : Type} (resolver : tls.Resolver) (e : Str × VHostConfig)
    (f : Option tls.Resolver → CertProg tls α) :
    installs files (addVHost tls resolver e.1 e.2.certPath e.2.keyPath >>= f) =
      installs files (f (addFrom tls files [e] resolver)) := by
  unfold addVHost addFrom
  simp only [Prog.perform_bind, Prog.call_bind, installs, List.foldlM_cons, List.foldlM_nil,
    bind_pure]
  cases files.get e.2.certPath with
  | none => rfl
  | some certBytes =>
    simp only [Prog.call_bind, installs]
    cases files.get e.2.keyPath <;> rfl

theorem updatesOnce_addVHost (resolver : tls.Resolver) (domain certPath keyPath : Str)
    {f : Option tls.Resolver → CertProg tls (Option Unit)} (hf : ∀ r, UpdatesOnce (f r)) :
    UpdatesOnce (addVHost tls resolver domain certPath keyPath >>= f) := by
  intro certBytes
  cases certBytes with
  | none => exact hf none
  | some certBytes =>
    intro keyBytes
    cases keyBytes with
    | none => exact hf none
    | some keyBytes => exact hf _

theorem installs_reloadVHosts {α : Type} (resolver : tls.Resolver)
    (f : Option tls.Resolver → CertProg tls α) :
    installs files (reloadVHosts tls vhosts resolver >>= f) =
      installs files (f (addFrom tls files vhosts resolver)) := by
  induction vhosts generalizing resolver with
  | nil => rfl
  | cons e vhosts ih =>
    have hsplit : addFrom tls files (e :: vhosts) resolver =
        (addFrom tls files [e] resolver).bind (addFrom tls files vhosts) := by
      unfold addFrom
      rw [← List.singleton_append, List.foldlM_append]
      rfl
    rw [hsplit]
    show installs files ((addVHost tls resolver e.1 e.2.certPath e.2.keyPath >>= _) >>= f) = _
    rw [Prog.bind_assoc, installs_addVHost]
    cases addFrom tls files [e] resolver with
    | none => rfl
    | some resolver' => exact ih resolver'

theorem updatesOnce_reloadVHosts (resolver : tls.Resolver)
    {f : Option tls.Resolver → CertProg tls (Option Unit)} (hf : ∀ r, UpdatesOnce (f r)) :
    UpdatesOnce (reloadVHosts tls vhosts resolver >>= f) := by
  induction vhosts generalizing resolver with
  | nil => exact hf _
  | cons e vhosts ih =>
    show UpdatesOnce ((addVHost tls resolver e.1 e.2.certPath e.2.keyPath >>= _) >>= f)
    rw [Prog.bind_assoc]
    apply updatesOnce_addVHost
    intro r
    cases r with
    | none => exact hf none
    | some resolver' => exact ih resolver'

/-- Of files that stay as they are a reload installs the certificates and keys. -/
theorem installs_reloadCerts (tls : Tls) (files : KeyMap Str Bytes)
    (vhosts : List (Str × VHostConfig)) :
    installs files (reloadCerts tls vhosts) = resolverOf tls files vhosts := by
  unfold reloadCerts resolverOf
  rw [installs_reloadVHosts]
  cases addFrom tls files vhosts tls.new <;> rfl

theorem updatesOnce_reloadCerts (tls : Tls) (vhosts : List (Str × VHostConfig)) :
    UpdatesOnce (reloadCerts tls vhosts) := by
  apply updatesOnce_reloadVHosts
  intro r
  cases r with
  | none => rfl
  | some resolver => exact fun _ => rfl

end

/-! ## The pool -/

section
variable {tls : Tls} {vhosts : List (Str × VHostConfig)} {w : CertWorld tls}
  {evs : List (PoolEvent Unit FileChange)}

/-- The pool after the events `evs`. -/
abbrev reloadRun (tls : Tls) (vhosts : List (Str × VHostConfig)) (w : CertWorld tls)
    (evs : List (PoolEvent Unit FileChange)) : CertPool tls :=
  (CertPool.idle w).run (reloadSystem tls vhosts) evs

/-- Only changes of files change files. -/
theorem files_step (vhosts : List (Str × VHostConfig)) (s : CertPool tls) {e : PoolEvent Unit FileChange}
    (he : ∀ change, e ≠ .outside change) :
    (s.step (reloadSystem tls vhosts) e).state.files = s.state.files := by
  rcases Pool.state_step (reloadSystem tls vhosts) s e with ⟨o, -, heq⟩ | ⟨change, rfl, -⟩ | heq
  · rw [heq]
    cases o <;> rfl
  · exact absurd rfl (he change)
  · rw [heq]

theorem files_run (vhosts : List (Str × VHostConfig)) (s : CertPool tls) (hevs : ∀ change, .outside change ∉ evs) :
    (s.run (reloadSystem tls vhosts) evs).state.files = s.state.files := by
  induction evs generalizing s with
  | nil => rfl
  | cons e evs ih =>
    have hstep : (s.step (reloadSystem tls vhosts) e).state.files = s.state.files :=
      files_step vhosts s fun change he => hevs change (he ▸ List.mem_cons_self)
    exact (ih _ fun change hmem => hevs change (List.mem_cons_of_mem e hmem)).trans hstep

/-- What the task `i` reads in the run is what the files hold at its end. -/
def ReadsFinal (tls : Tls) (vhosts : List (Str × VHostConfig)) (w : CertWorld tls)
    (evs : List (PoolEvent Unit FileChange)) (i : ℕ) : Prop :=
  ∀ pre post path k, evs = pre ++ .act i :: post →
    (reloadRun tls vhosts w pre).tasks[i]? = some (.call (.read path) k) →
      (reloadRun tls vhosts w pre).state.files.get path =
        (reloadRun tls vhosts w evs).state.files.get path

/-- Such a task is on its way to install the certificates that are there at the end, or has done
so. -/
theorem installs_task {i : ℕ} (hreads : ReadsFinal tls vhosts w evs i)
    {pre post : List (PoolEvent Unit FileChange)} (hevs : evs = pre ++ post)
    {p : CertProg tls (Option Unit)} (hp : (reloadRun tls vhosts w pre).tasks[i]? = some p) :
    (UpdatesOnce p ∧ installs (reloadRun tls vhosts w evs).state.files p =
      resolverOf tls (reloadRun tls vhosts w evs).state.files vhosts) ∨ p = .ret (some ()) := by
  set files := (reloadRun tls vhosts w evs).state.files with hfiles
  refine Pool.task_run (T := fun p => (UpdatesOnce p ∧ installs files p =
    resolverOf tls files vhosts) ∨ p = .ret (some ())) rfl ?_ ?_ hp
  · exact fun _ => .inl ⟨updatesOnce_reloadCerts tls vhosts, installs_reloadCerts tls files vhosts⟩
  · intro pre' post' o k hpre htask hT
    obtain ⟨honce, hinstalls⟩ := hT.resolve_right fun h => nomatch h
    cases o with
    | read path =>
      have hget := hreads pre' (post' ++ post) path k (by rw [hevs, hpre]; simp) htask
      left
      show UpdatesOnce (k ((reloadRun tls vhosts w pre').state.files.get path)) ∧
        installs files (k ((reloadRun tls vhosts w pre').state.files.get path)) = _
      rw [hget]
      exact ⟨honce _, hinstalls⟩
    | update resolver => exact .inr (honce ())

/-- The task `t` is started after the last change of a file. -/
def StartedLast (tls : Tls) (vhosts : List (Str × VHostConfig)) (w : CertWorld tls)
    (evs : List (PoolEvent Unit FileChange)) (t : ℕ) : Prop :=
  ∃ before after, evs = before ++ .start () :: after ∧ (∀ change, .outside change ∉ after) ∧
    t = (reloadRun tls vhosts w before).tasks.length

/-- So it reads what the files hold at the end. -/
theorem StartedLast.readsFinal {t : ℕ} (h : StartedLast tls vhosts w evs t) :
    ReadsFinal tls vhosts w evs t := by
  obtain ⟨before, after, rfl, hquiet, rfl⟩ := h
  intro pre post path k hsplit htask
  have hlt := (List.getElem?_eq_some_iff.mp htask).1
  rcases List.append_eq_append_iff.mp hsplit with ⟨as, rfl, has⟩ | ⟨bs, hbs, -⟩
  · -- the read comes after the start, and so after the last change
    cases as with
    | nil => cases has
    | cons e as =>
      obtain ⟨-, rfl⟩ := List.cons.inj has
      have hfiles := files_run vhosts (reloadRun tls vhosts w (before ++ e :: as))
        fun change hmem => hquiet change (List.mem_append_right as hmem)
      rw [hsplit]
      unfold reloadRun at hfiles ⊢
      rw [Pool.run_append _ (_ :: post)]
      exact congrArg (fun files : KeyMap Str Bytes => files.get path) hfiles.symm
  · have hle : (reloadRun tls vhosts w pre).tasks.length ≤
        (reloadRun tls vhosts w before).tasks.length := by
      rw [hbs]
      unfold reloadRun
      rw [Pool.run_append]
      exact Pool.length_tasks_run _ _ bs
    omega

/-- During `post`, after `pre`, no task replaces the resolver. -/
def Kept (tls : Tls) (vhosts : List (Str × VHostConfig)) (w : CertWorld tls)
    (pre post : List (PoolEvent Unit FileChange)) : Prop :=
  ∀ a e b resolver, post = a ++ e :: b →
    ¬ (reloadRun tls vhosts w (pre ++ a)).Calls e (.update resolver)

theorem Kept.cons {pre post : List (PoolEvent Unit FileChange)} {e : PoolEvent Unit FileChange}
    (he : ∀ resolver, ¬ (reloadRun tls vhosts w pre).Calls e (.update resolver))
    (h : Kept tls vhosts w (pre ++ [e]) post) : Kept tls vhosts w pre (e :: post) := by
  intro a e' b resolver heq
  cases a with
  | nil =>
    obtain ⟨rfl, rfl⟩ := List.cons.inj heq
    rw [List.append_nil]
    exact he resolver
  | cons c a =>
    obtain ⟨rfl, rfl⟩ := List.cons.inj heq
    rw [show pre ++ e :: a = (pre ++ [e]) ++ a by simp]
    exact h a e' b resolver rfl

/-- If a task replaces the resolver after the task `t` has finished, and none does so later, then
what it has read is what the files hold at the end. -/
def NotOvertaken (tls : Tls) (vhosts : List (Str × VHostConfig)) (w : CertWorld tls)
    (evs : List (PoolEvent Unit FileChange)) (t : ℕ) : Prop :=
  ∀ pre post i resolver k, evs = pre ++ .act i :: post →
    (reloadRun tls vhosts w pre).tasks[t]? = some (.ret (some ())) →
      (reloadRun tls vhosts w pre).tasks[i]? = some (.call (.update resolver) k) →
        Kept tls vhosts w (pre ++ [.act i]) post → ReadsFinal tls vhosts w evs i

/-- Once the task `t` has finished, a resolver that stays is that for the files as they are at
the end. -/
theorem resolver_run {t : ℕ} (hstart : StartedLast tls vhosts w evs t)
    (hnot : NotOvertaken tls vhosts w evs t) {pre post : List (PoolEvent Unit FileChange)}
    (hevs : evs = pre ++ post) (hkept : Kept tls vhosts w pre post)
    (hdone : (reloadRun tls vhosts w pre).tasks[t]? = some (.ret (some ()))) :
    resolverOf tls (reloadRun tls vhosts w evs).state.files vhosts =
      some (reloadRun tls vhosts w pre).state.resolver := by
  induction pre using List.reverseRecOn generalizing post with
  | nil => cases hdone
  | append_singleton pre e ih =>
    have hevs' : evs = pre ++ e :: post := by rw [hevs]; simp
    have hstep : reloadRun tls vhosts w (pre ++ [e]) =
        (reloadRun tls vhosts w pre).step (reloadSystem tls vhosts) e := Pool.run_concat pre e
    rw [hstep] at hdone ⊢
    rcases Pool.tasks_step hdone with hold | ⟨o, k, rfl, htask, hret⟩ | ⟨k, -, -, hret⟩
    · -- the task had finished before
      by_cases hcalls : ∃ resolver, (reloadRun tls vhosts w pre).Calls e (.update resolver)
      · obtain ⟨resolver, i, k, rfl, htask⟩ := hcalls
        have hfinal := hnot pre post i resolver k hevs' hold htask hkept
        rw [Pool.step_act htask]
        rcases installs_task hfinal hevs' htask with ⟨-, hinstalls⟩ | hret
        · exact hinstalls.symm
        · cases hret
      · have hresolver := ih hevs' (hkept.cons fun resolver h => hcalls ⟨resolver, h⟩) hold
        rw [hresolver]
        rcases Pool.state_step (reloadSystem tls vhosts) (reloadRun tls vhosts w pre) e with
          ⟨o, ho, heq⟩ | ⟨change, -, heq⟩ | heq
        · rw [heq]
          cases o with
          | read path => rfl
          | update resolver => exact absurd ⟨resolver, ho⟩ hcalls
        · rw [heq]
          rfl
        · rw [heq]
    · -- the task finishes: what it has done just now is to replace the resolver
      rcases installs_task hstart.readsFinal hevs' htask with ⟨honce, hinstalls⟩ | hret'
      · cases o with
        | read path =>
          have hno : UpdatesOnce (.ret (some ()) : CertProg tls (Option Unit)) :=
            hret ▸ honce ((reloadRun tls vhosts w pre).state.files.get path)
          cases hno
        | update resolver =>
          rw [Pool.step_act htask]
          exact hinstalls.symm
      · cases hret'
    · have hno : UpdatesOnce (.ret (some ()) : CertProg tls (Option Unit)) :=
        hret ▸ updatesOnce_reloadCerts tls vhosts
      cases hno

/-- **Concurrent reloads converge**, unless a task that has read older files finishes after the
one that was started after the last change: a reload replaces the resolver whatever has been put
in place since it began. -/
theorem reload_converges {t : ℕ} (hstart : StartedLast tls vhosts w evs t)
    (hdone : ∀ p ∈ (reloadRun tls vhosts w evs).tasks, p = .ret (some ()))
    (hnot : NotOvertaken tls vhosts w evs t) :
    resolverOf tls (reloadRun tls vhosts w evs).state.files vhosts =
      some (reloadRun tls vhosts w evs).state.resolver := by
  apply resolver_run hstart hnot (List.append_nil evs).symm (by simp [Kept])
  have hlt : t < (reloadRun tls vhosts w evs).tasks.length := by
    obtain ⟨before, after, rfl, -, rfl⟩ := hstart
    have hgrow := Pool.length_tasks_run (reloadSystem tls vhosts)
      ((reloadRun tls vhosts w before).step (reloadSystem tls vhosts) (.start ())) after
    have hone : ((reloadRun tls vhosts w before).step (reloadSystem tls vhosts)
        (.start ())).tasks.length = (reloadRun tls vhosts w before).tasks.length + 1 :=
      List.length_append
    unfold reloadRun at hgrow hone ⊢
    rw [Pool.run_append before]
    exact Nat.lt_of_lt_of_le (by omega) hgrow
  rw [List.getElem?_eq_getElem hlt, hdone _ (List.getElem_mem hlt)]

end

/-- After the run no task is in flight, none has failed, and one was started after the last
change of a file; then the resolver is that for the files. -/
def Converges (tls : Tls) (vhosts : List (Str × VHostConfig)) (w : CertWorld tls)
    (evs : List (PoolEvent Unit FileChange)) : Prop :=
  ∀ t, StartedLast tls vhosts w evs t →
    (∀ p ∈ (reloadRun tls vhosts w evs).tasks, p = .ret (some ())) →
      resolverOf tls (reloadRun tls vhosts w evs).state.files vhosts =
        some (reloadRun tls vhosts w evs).state.resolver

/-- A library that takes the bytes of a file for the certificate, or the key, that is in it. -/
def sampleTls : Tls where
  Cert := Bytes
  PrivateKey := Bytes
  SigningKey := Bytes
  Resolver := List (Str × CertifiedKey Bytes Bytes)
  certs bytes := some [bytes]
  privateKey bytes := some (some bytes)
  anySupportedType := some
  new := []
  add resolver domain key := some (resolver ++ [(domain, key)])

def sampleVHosts : List (Str × VHostConfig) :=
  [("a".toList, ⟨"certs/a.pem".toList, "certs/a.key".toList, [], .empty⟩)]

/-- The files of the one virtual host, and a resolver without certificates. -/
def sampleFiles : CertWorld sampleTls where
  files := (KeyMap.empty.insert "certs/a.pem".toList [1]).insert "certs/a.key".toList [9]
  resolver := []

/-- A reload reads the files; the certificate is renewed, and a second reload begins. The first
one installs what it has read, and then the second one does. -/
def inOrder : List (PoolEvent Unit FileChange) :=
  [.start (), .act 0, .act 0, .outside (.write "certs/a.pem".toList [2]), .start (), .act 1,
    .act 1, .act 0] ++ [.act 1]

theorem reload_converges_inOrder : resolverOf sampleTls
    (reloadRun sampleTls sampleVHosts sampleFiles inOrder).state.files sampleVHosts =
      some (reloadRun sampleTls sampleVHosts sampleFiles inOrder).state.resolver := by
  refine reload_converges (t := 1)
    ⟨inOrder.take 4, inOrder.drop 5, rfl, by simp [inOrder], rfl⟩ ?_ ?_
  · intro p hp
    have hp' : p ∈ [Prog.ret (some ()), Prog.ret (some ())] := hp
    simpa using hp'
  · intro pre post i resolver k hevs hdone
    -- the second reload finishes with the last event
    obtain ⟨mid, hmid⟩ : ∃ mid, inOrder.dropLast = pre ++ mid := by
      rw [hevs, List.dropLast_append_of_ne_nil (List.cons_ne_nil _ _)]
      exact ⟨_, rfl⟩
    have hlast : (reloadRun sampleTls sampleVHosts sampleFiles inOrder.dropLast).tasks[1]? =
        some (.ret (some ())) := by
      rw [hmid]
      unfold reloadRun
      rw [Pool.run_append]
      exact Pool.ret_run hdone mid
    cases hlast

/-- The same, but the first reload comes to its end after the second. -/
def overtaken : List (PoolEvent Unit FileChange) :=
  [.start (), .act 0, .act 0, .outside (.write "certs/a.pem".toList [2]), .start (), .act 1,
    .act 1, .act 1, .act 0]

theorem overtaken_reload : ¬ Converges sampleTls sampleVHosts sampleFiles overtaken := by
  intro h
  have hstart : StartedLast sampleTls sampleVHosts sampleFiles overtaken 1 :=
    ⟨overtaken.take 4, overtaken.drop 5, rfl, by simp [overtaken], rfl⟩
  have hfinal := h 1 hstart fun p hp => by
    have hp' : p ∈ [Prog.ret (some ()), Prog.ret (some ())] := hp
    simpa using hp'
  -- the certificate on disk, and the one in use
  have hcert : some [("a".toList, (⟨[[2]], [9]⟩ : CertifiedKey Bytes Bytes))] =
      some [("a".toList, ⟨[[1]], [9]⟩)] := hfinal
  revert hcert
  decide

end OxidizedWall
