import Mathlib.Data.List.Basic

/-!
# Procedure names with contracts of their own
-/

namespace NetboxRpc

def netboxStagingRotateBackendToken : String := "service.netbox.staging.rotate_backend_token"
def netboxStagingDeployDnsPair : String := "service.netbox.staging.deploy_dns_pair"
def giteaProductionUpgrade : String := "service.gitea.production.upgrade_1_27_1"
def giteaRunnerRegister : String := "service.gitea.runner.register"
def giteaOrgCiRunnerProvision : String := "service.gitea.actions_runner.provision_org_ci_runner"
def akvoradoInstall : String := "os.linux.debian.13.install_akvorado"
def netboxProductionRestartRqWorker : String := "service.netbox.production.restart_rq_worker"

def akvoradoBootstrapProcedureNames : List String :=
  ["os.linux.debian.13.preflight_akvorado", akvoradoInstall]

def influxdb3ProcedureNames : List String :=
  ["os.linux.debian.13.preflight_influxdb3_core", "os.linux.debian.13.install_influxdb3_core"]

def protectedApprovalProcedureNames : List String :=
  ["service.keycloak.iam_ui.configure", "service.keycloak.iam_ui.certificate",
    "service.keycloak.iam_ui.activate", netboxStagingRotateBackendToken,
    netboxStagingDeployDnsPair, giteaProductionUpgrade, giteaRunnerRegister,
    giteaOrgCiRunnerProvision, "service.gitea.actions_runner.protected_pair.provision",
    "service.gitea.actions_runner.recover_user_ci_runner",
    "service.gitea.actions_runner.recover_org_ci_runner", akvoradoInstall,
    "service.openbao.1.provision_netbox_approle", "service.netbox.openbao_import.apply",
    "service.nmulticloud.deploy.release_marker_reconcile", "os.linux.proxmox.oci_registry_pull",
    "service.proxbox_api.release_images.recover", netboxProductionRestartRqWorker]

end NetboxRpc
