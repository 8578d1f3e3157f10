import OxidizedWall.Reload

/-!
# One reload

`Config::reload_certs` reads two files of every virtual host, any of which may be missing or hold
something else than it should, and may change while the reload is under way. It builds a resolver
of its own, and puts that in place with its last call: `reloadCerts_allOrNothing`.
-/

namespace OxidizedWall

section
variable {tls : Tls} {vhosts : List (Str × VHostConfig)}

/-- The calls that a reload makes, with their answers. -/
abbrev CertCalls (tls : Tls) := List (Σ o : CertOp tls.Resolver, o.Ans)

/-- The resolver in use after these calls, if it was `resolver` before them. -/
def inUse (resolver : tls.Resolver) (calls : CertCalls tls) : tls.Resolver :=
  calls.foldl (fun resolver call =>
    match call.1 with
    | .read _ => resolver
    | .update resolver => resolver) resolver

/-- `reads` found the certificate and the key of each virtual host, and `built` is `resolver` with
them added, and nothing else. -/
inductive BuiltFrom (tls : Tls) : tls.Resolver → List (Str × VHostConfig) → CertCalls tls →
    tls.Resolver → Prop
  | nil (resolver : tls.Resolver) : BuiltFrom tls resolver [] [] resolver
  | cons {resolver added built : tls.Resolver} {domain : Str} {vhost : VHostConfig}
    {vhosts : List (Str × VHostConfig)} {certBytes keyBytes : Bytes} {reads : CertCalls tls}
    {key : CertifiedKey tls.Cert tls.SigningKey} :
    certifiedKey tls certBytes keyBytes = some key → tls.add resolver domain key = some added →
    BuiltFrom tls added vhosts reads built →
    BuiltFrom tls resolver ((domain, vhost) :: vhosts)
      (⟨.read vhost.certPath, some certBytes⟩ :: ⟨.read vhost.keyPath, some keyBytes⟩ :: reads)
      built

/-- The calls are reads. -/
def OnlyReads (calls : CertCalls tls) : Prop := ∀ call ∈ calls, ∃ path, call.1 = .read path

theorem OnlyReads.inUse_eq {calls : CertCalls tls} (h : OnlyReads calls) (resolver : tls.Resolver) :
    inUse resolver calls = resolver := by
  induction calls with
  | nil => rfl
  | cons call calls ih =>
    obtain ⟨⟨path, hpath⟩, hcalls⟩ := List.forall_mem_cons.mp h
    obtain ⟨o, x⟩ := call
    simp only at hpath
    subst hpath
    exact ih hcalls

/-- What the step for one virtual host does: it reads, and adds a key or fails. -/
theorem traces_addVHost {resolver : tls.Resolver} {domain certPath keyPath : Str}
    {calls : CertCalls tls} {added : Option tls.Resolver}
    (h : (addVHost tls resolver domain certPath keyPath).Traces calls added) :
    OnlyReads calls ∧ ∀ r, added = some r → ∃ certBytes keyBytes key,
      calls = [⟨.read certPath, some certBytes⟩, ⟨.read keyPath, some keyBytes⟩] ∧
      certifiedKey tls certBytes keyBytes = some key ∧ tls.add resolver domain key = some r := by
  obtain ⟨certAnswer, rest, rfl, hcert⟩ := Prog.traces_call.mp h
  cases certAnswer with
  | none =>
    obtain ⟨rfl, rfl⟩ := Prog.traces_ret.mp hcert
    exact ⟨by simp [OnlyReads], fun _ h => (nomatch h)⟩
  | some certBytes =>
    obtain ⟨keyAnswer, rest', rfl, hkey⟩ := Prog.traces_call.mp hcert
    cases keyAnswer with
    | none =>
      obtain ⟨rfl, rfl⟩ := Prog.traces_ret.mp hkey
      exact ⟨by simp [OnlyReads], fun _ h => (nomatch h)⟩
    | some keyBytes =>
      obtain ⟨rfl, rfl⟩ := Prog.traces_ret.mp hkey
      refine ⟨by simp [OnlyReads], fun r hr => ?_⟩
      obtain ⟨key, hkey, hadd⟩ := Option.bind_eq_some_iff.mp hr
      exact ⟨certBytes, keyBytes, key, rfl, hkey, hadd⟩

theorem traces_reloadVHosts {resolver : tls.Resolver} {calls : CertCalls tls}
    {built : Option tls.Resolver} (h : (reloadVHosts tls vhosts resolver).Traces calls built) :
    OnlyReads calls ∧ ∀ r, built = some r → BuiltFrom tls resolver vhosts calls r := by
  induction vhosts generalizing resolver calls with
  | nil =>
    obtain ⟨rfl, rfl⟩ := Prog.traces_ret.mp h
    refine ⟨by simp [OnlyReads], ?_⟩
    rintro r ⟨⟩
    exact .nil resolver
  | cons e vhosts ih =>
    obtain ⟨domain, vhost⟩ := e
    obtain ⟨first, rest, added, rfl, hfirst, hrest⟩ := Prog.traces_bind.mp h
    obtain ⟨hreads, hadded⟩ := traces_addVHost hfirst
    cases added with
    | none =>
      obtain ⟨rfl, rfl⟩ := Prog.traces_ret.mp hrest
      rw [List.append_nil]
      exact ⟨hreads, fun _ h => (nomatch h)⟩
    | some added =>
      obtain ⟨hmore, hbuilt⟩ := ih hrest
      refine ⟨fun call hcall => (List.mem_append.mp hcall).elim (hreads call) (hmore call), ?_⟩
      intro r hr
      obtain ⟨certBytes, keyBytes, key, rfl, hkey, hadd⟩ := hadded added rfl
      exact .cons hkey hadd (hbuilt r hr)

/-- What a whole reload does. -/
theorem traces_reloadCerts {calls : CertCalls tls} {result : Option Unit}
    (h : (reloadCerts tls vhosts).Traces calls result) :
    (result = none ∧ OnlyReads calls) ∨
      ∃ reads built, result = some () ∧ calls = reads ++ [⟨.update built, ()⟩] ∧
        OnlyReads reads ∧ BuiltFrom tls tls.new vhosts reads built := by
  obtain ⟨first, rest, built, rfl, hfirst, hrest⟩ := Prog.traces_bind.mp h
  obtain ⟨hreads, hbuilt⟩ := traces_reloadVHosts hfirst
  cases built with
  | none =>
    obtain ⟨rfl, rfl⟩ := Prog.traces_ret.mp hrest
    rw [List.append_nil]
    exact .inl ⟨rfl, hreads⟩
  | some built =>
    obtain ⟨_, last, rfl, hlast⟩ := Prog.traces_call.mp hrest
    obtain ⟨rfl, rfl⟩ := Prog.traces_ret.mp hlast
    exact .inr ⟨first, built, rfl, rfl, hreads, hbuilt built rfl⟩

/-- **Certificate reload is all or nothing.** Whatever its reads find, and in whatever order `vhosts`
has the entries of the map, a reload fails and a handshake at any time finds the resolver of
before; or it succeeds, and that is so up to its last call, which puts in place the resolver that
is built from the certificate and the key just read of every virtual host. -/
theorem reloadCerts_allOrNothing {calls : CertCalls tls} {result : Option Unit}
    (h : (reloadCerts tls vhosts).Traces calls result) (old : tls.Resolver) :
    (result = none ∧ ∀ seen, seen <+: calls → inUse old seen = old) ∨
      ∃ reads built, result = some () ∧ calls = reads ++ [⟨.update built, ()⟩] ∧
        (∀ seen, seen <+: reads → inUse old seen = old) ∧ inUse old calls = built ∧
        BuiltFrom tls tls.new vhosts reads built := by
  have hseen {calls : CertCalls tls} (hreads : OnlyReads calls) :
      ∀ seen, seen <+: calls → inUse old seen = old := fun seen hseen =>
    OnlyReads.inUse_eq (fun call hcall => hreads call (hseen.subset hcall)) old
  rcases traces_reloadCerts h with ⟨hnone, hreads⟩ | ⟨reads, built, hsome, rfl, hreads, hbuilt⟩
  · exact .inl ⟨hnone, hseen hreads⟩
  · refine .inr ⟨reads, built, hsome, rfl, hseen hreads, ?_, hbuilt⟩
    unfold inUse
    rw [List.foldl_append]
    rfl

end

/-- Two virtual hosts, the certificate of the first of which is in use. -/
def servedVHosts : List (Str × VHostConfig) :=
  [("a".toList, ⟨"certs/a.pem".toList, "certs/a.key".toList, [], .empty⟩),
    ("b".toList, ⟨"certs/b.pem".toList, "certs/b.key".toList, [], .empty⟩)]

def servedResolver : sampleTls.Resolver := [("a".toList, ⟨[[1]], [9]⟩)]

/-- The certificate of the first is renewed, with its key; that of the second is there, and its key
is not. -/
def missingKey : CertCalls sampleTls :=
  [⟨.read "certs/a.pem".toList, some [2]⟩, ⟨.read "certs/a.key".toList, some [9]⟩,
    ⟨.read "certs/b.pem".toList, some [3]⟩, ⟨.read "certs/b.key".toList, none⟩]

theorem reloadCerts_allOrNothing_missingKey :
    inUse servedResolver missingKey = servedResolver := by
  -- the first virtual host is added to the resolver that is being built
  have hfirst : (addVHost sampleTls [] "a".toList "certs/a.pem".toList "certs/a.key".toList).Traces
      (missingKey.take 2) (some [("a".toList, ⟨[[2]], [9]⟩)]) :=
    Prog.traces_call.mpr ⟨some [2], _, rfl, Prog.traces_call.mpr ⟨some [9], [], rfl, .ret _⟩⟩
  have hsecond : (addVHost sampleTls [("a".toList, ⟨[[2]], [9]⟩)] "b".toList "certs/b.pem".toList
      "certs/b.key".toList).Traces (missingKey.drop 2) none :=
    Prog.traces_call.mpr ⟨some [3], _, rfl, Prog.traces_call.mpr ⟨none, [], rfl, .ret none⟩⟩
  have hrest : (reloadVHosts sampleTls servedVHosts.tail
      [("a".toList, ⟨[[2]], [9]⟩)]).Traces (missingKey.drop 2) none :=
    Prog.traces_bind.mpr ⟨missingKey.drop 2, [], none, rfl, hsecond, .ret none⟩
  have hvhosts : (reloadVHosts sampleTls servedVHosts []).Traces missingKey none :=
    Prog.traces_bind.mpr ⟨missingKey.take 2, missingKey.drop 2, _, rfl, hfirst, hrest⟩
  have h : (reloadCerts sampleTls servedVHosts).Traces missingKey none :=
    Prog.traces_bind.mpr ⟨missingKey, [], none, rfl, hvhosts, .ret none⟩
  rcases reloadCerts_allOrNothing h servedResolver with ⟨-, hseen⟩ | ⟨reads, built, hsome, -⟩
  · exact hseen missingKey List.prefix_rfl
  · cases hsome

end OxidizedWall
